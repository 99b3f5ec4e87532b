import FlagCX.Rma.Books

/-!
# The ring of the RMA proxy and its quiescence (`flagcx_hetero.cc`)

* `RingSound`  : what is published is consumed once and in order, the slots of what is not yet consumed are intact, and
  `flagcxRmaProxyCircularBufEmpty` tells whether there is any.
* `BelowWrap`  : no publication carries a producer index past its last 32-bit value. The two comparisons of the indices
  as numbers are right exactly as long as this holds (`Book.ring_sound`, `Book.empty_wrapped`).
-/

namespace FlagCX.Rma
open Function Option List

open Net Lib
open KernelProxy (Domain CompletionStage)

variable {n : Nat} {c : Config n} {s s' : Proxy n} {p : Fin n} {ans : Answers}

/-! ## The flag -/

section Flag

theorem completeDesc_quiesced (s : Proxy n) (p : Fin n) (d : Submission) (result : Result) :
    (completeDesc s p d result).1.quiesced = s.quiesced := by
  unfold completeDesc publishScoreboard
  dsimp only
  split_ifs <;> rfl

def Proxy.flags (s : Proxy n) : Bool × Bool × Bool × Pc n := (s.pendingError, s.rmaError, s.quiesced, s.pc)

theorem prepareDescs_flags (s : Proxy n) (p : Fin n) (ds : List Desc) : (prepareDescs p s ds).2.1.flags = s.flags := by
  have hone : ∀ (s : Proxy n) (d : Desc), (prepareDesc s p d).2.1.flags = s.flags := by
    intro s d
    unfold prepareDesc
    dsimp only
    split_ifs <;> rfl
  induction ds generalizing s with
  | nil => rfl
  | cons d ds ih =>
    unfold prepareDescs
    dsimp only
    split_ifs
    · exact (ih _).trans (hone s d)
    · exact hone s d

theorem rollback_flags (s : Proxy n) (p : Fin n) (ds : List Desc) : (rollback p s ds).2.flags = s.flags := by
  induction ds with
  | nil => rfl
  | cons d ds ih => exact ih

theorem sealGroup_flags (s : Proxy n) (g : Option Nat) : (sealGroup s g).2.flags = s.flags := by
  cases g <;> rfl

theorem publish_flags {out : Result × Proxy n × List (Note n)} (h : publish c s p = some out) : out.2.1.flags = s.flags := by
  have hundo : ∀ ds ds', (rollback p (prepareDescs p s ds).2.1 ds').2.flags = s.flags := fun _ _ =>
    (rollback_flags ..).trans (prepareDescs_flags ..)
  have hseal : ∀ ds g, (sealGroup (prepareDescs p s ds).2.1 g).2.flags = s.flags := fun _ _ =>
    (sealGroup_flags ..).trans (prepareDescs_flags ..)
  unfold publish at h
  split at h
  · dsimp only at h
    split_ifs at h <;> cases h <;> exact prepareDescs_flags ..
  · dsimp only at h
    split_ifs at h <;> cases h
    · exact hundo _ _
    · exact hundo _ _
    · exact prepareDescs_flags ..
  · dsimp only at h
    split_ifs at h <;> cases h
    · exact hundo _ _
    · exact hundo _ _
    · exact (rollback_flags ..).trans (hseal _ _)
    all_goals exact hseal _ _
  · dsimp only at h
    split_ifs at h <;> cases h <;> exact prepareDescs_flags ..
  · cases h

theorem pollEntry_quiesced (s : Proxy n) (p : Fin n) (i : Nat) (d : Desc) (ans : Answers) :
    (pollEntry s p i d ans).1.quiesced = s.quiesced := by
  unfold pollEntry retire
  dsimp only
  split_ifs
  all_goals first
    | rfl
    | exact completeDesc_quiesced ..

theorem ringEntry_quiesced (s : Proxy n) (p : Fin n) (sendComm : Bool) (ans : Answers) :
    (ringEntry c s p sendComm ans).1.quiesced = s.quiesced := by
  have hpostOp : ∀ d, (postOp c s p d ans).1.quiesced = s.quiesced := by
    intro d
    unfold postOp
    split <;> rfl
  have htake : ∀ (s : Proxy n) d b, (takePosted c s p d b).quiesced = s.quiesced := by
    intro s d b
    unfold takePosted
    dsimp only
    split_ifs <;> rfl
  have hone : ∀ d, (postOne c s p d ans sendComm).1.quiesced = s.quiesced := by
    intro d
    unfold postOne
    dsimp only
    split_ifs
    · exact hpostOp d
    · exact hpostOp d
    · exact (htake _ _ _).trans (hpostOp d)
  have hsubmit : ∀ d, (submitHead c s p sendComm d ans).1.quiesced = s.quiesced := by
    intro d
    unfold submitHead postBatch
    dsimp only
    split_ifs
    all_goals first
      | rfl
      | exact hone d
  have hgate : ∀ d, (eventGate c s p sendComm d ans).1.quiesced = s.quiesced := by
    intro d
    unfold eventGate settle
    dsimp only
    split_ifs
    all_goals first
      | rfl
      | exact hsubmit d
      | exact completeDesc_quiesced ..
  unfold ringEntry
  dsimp only
  split_ifs
  all_goals first
    | rfl
    | exact hgate _

variable {out : Proxy n × List (Note n)}

theorem progress_quiesced (h : progress c s ans = some out) : out.1.quiesced = s.quiesced := by
  unfold progress at h
  split at h
  · split_ifs at h <;> cases h <;> rfl
  · cases h
    rfl
  · split at h
    · cases h
      rfl
    · rw [← some.inj h]
      exact pollEntry_quiesced ..
  · split at h
    · cases h
      rfl
    · rw [← some.inj h]
      unfold progressGetVisibilityDomain
      dsimp only
      split_ifs <;> rfl
  · split at h
    · cases h
      rfl
    · rw [← some.inj h]
      unfold visibleEntry
      split
      · rfl
      · split_ifs
        · rfl
        · exact completeDesc_quiesced ..
  · rw [← some.inj h]
    unfold checkPeer
    dsimp only
    split_ifs <;> rfl
  · unfold drainEntry at h
    dsimp only at h
    split_ifs at h
    · cases h
      rfl
    · cases h
      exact completeDesc_quiesced ..
  · rw [← some.inj h]
    exact ringEntry_quiesced ..
  · rw [← some.inj h]
    unfold finishPass
    split_ifs <;> rfl

theorem act_quiesced {a : Action n} (h : act c s a = some out) (hq : s.quiesced = true) : out.1.quiesced = true := by
  cases a with
  | admitCall p call groupId =>
    obtain ⟨s₁, hs, rfl⟩ := map_eq_some_iff.1 h
    unfold admitCall at hs
    dsimp only at hs
    split_ifs at hs
    split at hs
    · split at hs
      · cases hs
      · cases hs
        exact hq
    · cases hs
      exact hq
  | publish p =>
    obtain ⟨out', hs, rfl⟩ := map_eq_some_iff.1 h
    exact (congrArg (·.2.2.1) (publish_flags hs)).trans hq
  | arm p ipcStatus =>
    obtain ⟨s₁, hs, rfl⟩ := map_eq_some_iff.1 h
    unfold arm at hs
    dsimp only at hs
    split at hs
    · cases hs
      exact hq
    · cases hs
  | signal p k =>
    unfold act signal at h
    dsimp only at h
    split at h
    · cases h
    · cases h
      exact hq
  | quiesce =>
    cases h
    rfl
  | progress ans => exact (progress_quiesced h).trans hq
  | dmaRead p i =>
    unfold act dmaRead at h
    dsimp only at h
    split at h
    · cases h
    · split_ifs at h
      cases h
      exact hq

end Flag

/-! ## The lock -/

section Closed
variable {x y : Core n} {a : Action n} {q : Fin n} {log ns : List (Note n)}

/-- No producer is past its checks. -/
def Peer.Closed (peer : Peer) : Prop := ∀ e, peer.lock ≠ .admitted e

theorem Move.closed (h : Move c x a y ns) (hno : ∀ p call groupId, a ≠ .admitCall p call groupId)
    (hq : (x.peers q).Closed) : (y.peers q).Closed ∧ (y.peers q).pi = (x.peers q).pi := by
  have lift : ∀ (p : Fin n) (peer : Peer), (q = p → peer.Closed ∧ peer.pi = (x.peers p).pi) →
      ((x.setPeer p peer).peers q).Closed ∧ ((x.setPeer p peer).peers q).pi = (x.peers q).pi := by
    intro p peer hp
    rcases eq_or_ne q p with rfl | hne
    · rw [Core.setPeer_self]
      exact hp rfl
    · show (update x.peers p peer q).Closed ∧ (update x.peers p peer q).pi = _
      rw [update_of_ne hne]
      exact ⟨hq, rfl⟩
  cases h with
  | admitCall p call groupId => exact absurd rfl (hno p call groupId)
  | admitGroup p call groupId => exact absurd rfl (hno p call groupId)
  | publish p e f f' hlock => exact lift p _ fun he => absurd (he ▸ hlock) (hq e)
  | unpublish p e k f hlock => exact lift p _ fun he => absurd (he ▸ hlock) (hq e)
  | arm p idx ipcStatus hlock => exact lift p _ fun _ => ⟨by simp [Peer.Closed], rfl⟩
  | retire p i d result =>
    obtain ⟨doneSeq, hpeers⟩ := x.retire_peers p i d.toSubmission result
    rw [hpeers]
    exact lift p _ fun he => ⟨he ▸ hq, rfl⟩
  | settle p d result =>
    obtain ⟨doneSeq, hpeers⟩ := x.settle_peers p d.toSubmission result
    rw [hpeers]
    exact lift p _ fun he => ⟨he ▸ hq, rfl⟩
  | deliver p => exact ⟨hq, rfl⟩
  | _ p => exact lift p _ fun he => ⟨he ▸ hq, rfl⟩

theorem Moves.closed (h : Moves c a x y ns) (hno : ∀ p call groupId, a ≠ .admitCall p call groupId)
    (hq : (x.peers q).Closed) :
    (y.peers q).Closed ∧ (y.peers q).pi = (x.peers q).pi ∧ published (view q ns) = [] := by
  have hone : ∀ {x y : Core n} {ns : List (Note n)}, Move c x a y ns → (x.peers q).Closed → published (view q ns) = [] := by
    intro x y ns h hq
    rcases h.published_cases with ⟨p, e, f, -, hlock, -, rfl⟩ | hnone
    · have hne : q ≠ p := fun he => hq e (he ▸ hlock)
      rw [view_of_ne (p := p) ?_ hne]
      · rfl
      · intro v hv
        obtain ⟨d, -, rfl⟩ := mem_map.1 hv
        rfl
    · exact published_view hnone q
  induction h with
  | nil => exact ⟨hq, rfl, rfl⟩
  | one hm => exact ⟨(hm.closed hno hq).1, (hm.closed hno hq).2, hone hm hq⟩
  | cons _ hm _ ih =>
    obtain ⟨h1, h2⟩ := hm.closed hno hq
    obtain ⟨h4, h5, h6⟩ := ih h1
    exact ⟨h4, h5.trans h2, by rw [view_append, published_append, hone hm hq, h6, append_nil]⟩

end Closed

/-! ## Quiescence -/

/-- Where a thread stands in `flagcxHeteroRmaProxyQuiesce`: before the store of the flag, at the producer lock of the
`p`-th peer, at the read of its producer index, of its consumer index and of its requests in flight, or returned. -/
inductive Quiesce (n : Nat) where
  | entered
  | sweep (p : Nat)
  | scan (p : Nat)
  | readCi (p : Fin n) (pi : UInt32)
  | readFlight (p : Fin n) (pi ci : UInt32)
  | returned

/-- The next step of `flagcxHeteroRmaProxyQuiesce`. -/
def Quiesce.next (s : Proxy n) : Quiesce n → Option (Quiesce n)
  | .entered => some (.sweep 0)
  | .sweep p =>
    if h : p < n then if (s.peers ⟨p, h⟩).lock = .free then some (.sweep (p + 1)) else none else some (.scan 0)
  | .scan p => some (if h : p < n then .readCi ⟨p, h⟩ (s.peers ⟨p, h⟩).pi else .returned)
  | .readCi p pi => some (.readFlight p pi (s.peers p).ci)
  | .readFlight p pi ci => some (if ci < pi ∨ (s.peers p).inFlight ≠ 0 then .scan 0 else .scan (p + 1))
  | .returned => none

/-- A run of the proxy, and the threads in `flagcxHeteroRmaProxyQuiesce`. -/
structure Quiescing (n : Nat) where
  run : Run n
  calls : Nat → Quiesce n

/-- A step of the proxy, or of the `k`-th of the threads. -/
inductive QuiesceAction (n : Nat) where
  | proxy (a : Action n)
  | call (k : Nat)

def quiesceStep (c : Config n) (w : Quiescing n) : QuiesceAction n → Option (Quiescing n)
  | .proxy a => (step c w.run a).map fun r => { w with run := r }
  | .call k =>
    match (w.calls k).next w.run.proxy with
    | none => none
    | some next =>
      -- the first step stores the flag
      let run := match w.calls k with
        | .entered => { w.run with proxy := { w.run.proxy with quiesced := true } }
        | _ => w.run
      some ⟨run, update w.calls k next⟩

/-- The runs from the start, with all threads before their call, whose proxy steps meet the guard. -/
def QuiesceReachable (c : Config n) (ok : Run n → Action n → Prop) (w : Quiescing n) : Prop :=
  ∃ s groups, Proxy.init c groups = .ok s ∧
    Reach (quiesceStep c) (fun w a => ∀ b, a = .proxy b → ok w.run b) ⟨⟨s, []⟩, fun _ => .entered⟩ w

/-! ## What the ring promises -/

/-- What is published is consumed at most once and in the order of publication, the slots of what is not yet consumed are
as they were written, and the emptiness test tells whether there is any. -/
structure RingSound (c : Config n) (peer : Peer) (l : List (Note n)) : Prop where
  order : consumed l <+: published l
  once : (consumed l).Nodup
  intact : ∀ k d, (published l)[(consumed l).length + k]? = some d → (peer.ringAt c k).toSubmission = d
  empty : circularBufEmpty peer = true ↔ consumed l = published l

/-- The publication of `e` stays below the wrap of the producer index: it does not carry the index to `2 ^ 32`. It matters
only when the scoreboard takes the descriptors of `e`. -/
def BelowWrap (r : Run n) : Action n → Prop
  | .publish p => ∀ e, (r.proxy.peers p).lock = .admitted e →
      (submitAll p r.proxy.fabric ((number (r.proxy.peers p).opSeq e.descs).map (·.toSubmission))).isSome →
        (r.proxy.peers p).pi.toNat + e.descs.length < 2 ^ 32
  | _ => True

section Sound
variable {peer : Peer} {l : List (Note n)} {r : Run n} {w : Quiescing n}

theorem Book.order_sound (h : Book c peer l) :
    consumed l <+: published l ∧ (consumed l).Nodup ∧
      ∀ k d, (published l)[(consumed l).length + k]? = some d → (peer.ringAt c k).toSubmission = d := by
  have hpre : consumed l <+: published l := by
    rw [h.order]
    exact take_prefix _ _
  refine ⟨hpre, hpre.sublist.nodup h.nodup, fun k d hd => ?_⟩
  have hlt := (List.getElem?_eq_some_iff.1 hd).1
  have hslot := h.ring.slot_at c.bits_lt' c.mask_eq hlt
  rw [hd] at hslot
  exact (some.inj hslot).symm

theorem Book.consumed_eq (h : Book c peer l) : (consumed l).length = (published l).length ↔ consumed l = published l := by
  constructor
  · intro he
    have ho := h.order
    rwa [he, take_length] at ho
  · exact congrArg length

theorem Book.ring_sound (h : Book c peer l) (hwrap : (published l).length < 2 ^ 32) : RingSound c peer l := by
  obtain ⟨horder, honce, hintact⟩ := h.order_sound
  refine ⟨horder, honce, hintact, ?_⟩
  rw [circularBufEmpty, decide_eq_true_iff, h.ring.le_iff hwrap, h.consumed_eq]

theorem Book.empty_wrapped (h : Book c peer l) (hwrap : 2 ^ 32 ≤ (published l).length)
    (hci : (consumed l).length < 2 ^ 32) : circularBufEmpty peer = true ∧ consumed l ≠ published l := by
  refine ⟨?_, fun he => ?_⟩
  · rw [circularBufEmpty, decide_eq_true_iff]
    exact h.ring.le_of_wrapped c.bits_lt' hwrap hci
  · have := congrArg length he
    omega

end Sound

/-! ## Runs below the wrap -/

section Guarded
variable {r : Run n} {w : Quiescing n}

theorem Reachable.published_lt (h : Reachable c BelowWrap r) (p : Fin n) : (published (view p r.log)).length < 2 ^ 32 := by
  refine (h.keeps (I := fun x log => (∀ p, Book c (x.peers p) (view p log)) ∧
    ∀ p, (published (view p log)).length < 2 ^ 32) ?_ ?_).2 p
  · intro board groups _
    exact ⟨fun _ => book_init, fun _ => by simp⟩
  · rintro x a y log ns ⟨hb, hlt⟩ hmove hguard
    refine ⟨hmove.books hb, fun q => ?_⟩
    rw [view_append, published_append, length_append]
    rcases hmove.published_cases with ⟨p, e, f, rfl, hlock, hsubmit, rfl⟩ | hnone
    · have hpeer : ∀ v ∈ ((number (x.peers p).opSeq e.descs).map fun d =>
          (.published p d.toSubmission (if e.signals then some (e.last (x.peers p).opSeq) else none) : Note n)),
          v.peer = p := by
        intro v hv
        obtain ⟨d, -, rfl⟩ := mem_map.1 hv
        rfl
      rcases eq_or_ne q p with rfl | hne
      · obtain ⟨s, rfl, hok⟩ := hguard (by simp)
        have hpi := hok e hlock (by rw [hsubmit]; rfl)
        have hprod := (hb q).ring.producer
        rw [Nat.mod_eq_of_lt (hlt q)] at hprod
        rw [view_of_peer hpeer, (publish_submissions _ q _).1, length_map, number_length]
        dsimp only at hpi
        omega
      · rw [view_of_ne hpeer hne]
        simpa using hlt q
    · rw [published_view hnone]
      simpa using hlt q

/-- What has been published to the peer has left the ring. -/
def Emptied (r : Run n) (p : Fin n) : Prop := consumed (view p r.log) = published (view p r.log)

/-- What a thread in `flagcxHeteroRmaProxyQuiesce` knows of the proxy. -/
def Quiesce.Knows (r : Run n) : Quiesce n → Prop
  | .entered => True
  | .sweep p => r.proxy.quiesced = true ∧ ∀ q : Fin n, q.val < p → (r.proxy.peers q).Closed
  | .scan p => r.proxy.quiesced = true ∧ (∀ q, (r.proxy.peers q).Closed) ∧ ∀ q : Fin n, q.val < p → Emptied r q
  | .readCi p pi => r.proxy.quiesced = true ∧ (∀ q, (r.proxy.peers q).Closed) ∧ (∀ q : Fin n, q.val < p.val → Emptied r q) ∧
      pi = (r.proxy.peers p).pi
  | .readFlight p pi ci => r.proxy.quiesced = true ∧ (∀ q, (r.proxy.peers q).Closed) ∧
      (∀ q : Fin n, q.val < p.val → Emptied r q) ∧ (pi ≤ ci → Emptied r p)
  | .returned => r.proxy.quiesced = true ∧ (∀ q, (r.proxy.peers q).Closed) ∧ ∀ q, Emptied r q

theorem step_quiesced {r' : Run n} {a : Action n} (h : step c r a = some r') (hq : r.proxy.quiesced = true) :
    r'.proxy.quiesced = true ∧ ∀ q, (r.proxy.peers q).Closed → (r'.proxy.peers q).Closed ∧
      (r'.proxy.peers q).pi = (r.proxy.peers q).pi ∧ published (view q r'.log) = published (view q r.log) := by
  obtain ⟨out, hact, rfl⟩ := map_eq_some_iff.1 h
  refine ⟨act_quiesced hact hq, fun q hc => ?_⟩
  -- a quiesced communicator refuses every admission
  have hno : ∀ p call groupId, a ≠ .admitCall p call groupId := by
    rintro p call groupId rfl
    obtain ⟨s₁, hs, -⟩ := map_eq_some_iff.1 hact
    unfold admitCall at hs
    dsimp only at hs
    split_ifs at hs with hok
    have hrefuse := hok.2.2.2.1
    unfold Proxy.refusal at hrefuse
    split at hrefuse <;> simp [hq] at hrefuse
  obtain ⟨h1, h2, h3⟩ := (act_moves hact).closed hno hc
  refine ⟨h1, h2, ?_⟩
  rw [view_append, published_append, h3, append_nil]

theorem step_emptied {r' : Run n} {a : Action n} {q : Fin n} (h : step c r a = some r')
    (hb : Book c (r'.proxy.peers q) (view q r'.log))
    (hpub : published (view q r'.log) = published (view q r.log)) (he : Emptied r q) : Emptied r' q := by
  obtain ⟨out, hact, rfl⟩ := map_eq_some_iff.1 h
  refine hb.consumed_eq.1 ?_
  have hle := hb.ring.le
  have hlen : (consumed (view q (r.log ++ out.2))).length = (consumed (view q r.log)).length +
      (consumed (view q out.2)).length := by rw [view_append, consumed_append, length_append]
  have he' := congrArg length he
  have hp' := congrArg length hpub
  dsimp only at hle hp' ⊢
  omega

theorem Quiesce.Knows.step {r' : Run n} {a : Action n} {k : Quiesce n} (h : k.Knows r) (hstep : Rma.step c r a = some r')
    (hb : ∀ q, Book c (r'.proxy.peers q) (view q r'.log)) : k.Knows r' := by
  have hkeep : ∀ hq : r.proxy.quiesced = true, ∀ q, (r.proxy.peers q).Closed → Emptied r q → Emptied r' q :=
    fun hq q hc he => step_emptied hstep (hb q) ((step_quiesced hstep hq).2 q hc).2.2 he
  cases k with
  | entered => trivial
  | sweep p => exact ⟨(step_quiesced hstep h.1).1, fun q hlt => ((step_quiesced hstep h.1).2 q (h.2 q hlt)).1⟩
  | scan p =>
    obtain ⟨hq, hc, he⟩ := h
    exact ⟨(step_quiesced hstep hq).1, fun q => ((step_quiesced hstep hq).2 q (hc q)).1,
      fun q hlt => hkeep hq q (hc q) (he q hlt)⟩
  | readCi p pi =>
    obtain ⟨hq, hc, he, hpi⟩ := h
    exact ⟨(step_quiesced hstep hq).1, fun q => ((step_quiesced hstep hq).2 q (hc q)).1,
      fun q hlt => hkeep hq q (hc q) (he q hlt), hpi.trans ((step_quiesced hstep hq).2 p (hc p)).2.1.symm⟩
  | readFlight p pi ci =>
    obtain ⟨hq, hc, he, hci⟩ := h
    exact ⟨(step_quiesced hstep hq).1, fun q => ((step_quiesced hstep hq).2 q (hc q)).1,
      fun q hlt => hkeep hq q (hc q) (he q hlt), fun hle => hkeep hq p (hc p) (hci hle)⟩
  | returned =>
    obtain ⟨hq, hc, he⟩ := h
    exact ⟨(step_quiesced hstep hq).1, fun q => ((step_quiesced hstep hq).2 q (hc q)).1,
      fun q => hkeep hq q (hc q) (he q)⟩

theorem Quiesce.Knows.next {k k' : Quiesce n} (h : k.Knows r) (hq : r.proxy.quiesced = true)
    (hring : ∀ q, RingSound c (r.proxy.peers q) (view q r.log)) (hnext : k.next r.proxy = some k') : k'.Knows r := by
  cases k with
  | entered =>
    cases hnext
    exact ⟨hq, fun q hlt => absurd hlt (Nat.not_lt_zero _)⟩
  | sweep p =>
    unfold Quiesce.next at hnext
    dsimp only at hnext
    split_ifs at hnext with hp hfree
    · cases hnext
      refine ⟨hq, fun q hlt => ?_⟩
      rcases Nat.lt_succ_iff_lt_or_eq.1 hlt with hl | he
      · exact h.2 q hl
      · have hqp : q = ⟨p, hp⟩ := Fin.ext he
        rw [hqp, Peer.Closed, hfree]
        simp
    · cases hnext
      exact ⟨hq, fun q => h.2 q (by omega), fun q hlt => absurd hlt (Nat.not_lt_zero _)⟩
  | scan p =>
    obtain ⟨-, hc, he⟩ := h
    obtain rfl := some.inj hnext
    split_ifs with hp
    · exact ⟨hq, hc, he, rfl⟩
    · exact ⟨hq, hc, fun q => he q (by omega)⟩
  | readCi p pi =>
    obtain ⟨-, hc, he, hpi⟩ := h
    obtain rfl := some.inj hnext
    refine ⟨hq, hc, he, fun hle => (hring p).empty.1 ?_⟩
    rw [circularBufEmpty, decide_eq_true_iff, ← hpi]
    exact hle
  | readFlight p pi ci =>
    obtain ⟨-, hc, he, hci⟩ := h
    obtain rfl := some.inj hnext
    split_ifs with hout
    · exact ⟨hq, hc, fun q hlt => absurd hlt (Nat.not_lt_zero _)⟩
    · push Not at hout
      refine ⟨hq, hc, fun q hlt => ?_⟩
      rcases Nat.lt_succ_iff_lt_or_eq.1 hlt with hl | heq
      · exact he q hl
      · rw [Fin.ext heq]
        exact hci (UInt32.not_lt.1 (by simpa using hout.1))
  | returned => cases hnext

theorem QuiesceReachable.knows (h : QuiesceReachable c BelowWrap w) :
    Reachable c BelowWrap w.run ∧ ∀ k, (w.calls k).Knows w.run := by
  obtain ⟨s, groups, hinit, hreach⟩ := h
  refine hreach.invariant (I := fun w => Reachable c BelowWrap w.run ∧ ∀ k, (w.calls k).Knows w.run)
    ⟨⟨s, groups, hinit, .init⟩, fun _ => trivial⟩ ?_
  rintro w w' a ⟨hr, hk⟩ hguard hstep
  have hnext : ∀ {r' : Run n} {b : Action n}, Rma.step c w.run b = some r' → BelowWrap w.run b → Reachable c BelowWrap r' := by
    intro r' b hs hb
    obtain ⟨s, groups, hinit, hreach⟩ := hr
    exact ⟨s, groups, hinit, .next b hreach hb hs⟩
  cases a with
  | proxy b =>
    obtain ⟨r, hs, rfl⟩ := map_eq_some_iff.1 hstep
    have hr' := hnext hs (hguard b rfl)
    exact ⟨hr', fun k => (hk k).step hs hr'.books⟩
  | call k =>
    unfold quiesceStep at hstep
    dsimp only at hstep
    split at hstep
    · cases hstep
    rename_i k' hk'
    obtain rfl := some.inj hstep
    cases hcall : w.calls k with
    | entered =>
      -- the store of the flag is a step of the proxy, which every thread survives
      have hs : Rma.step c w.run .quiesce = some { w.run with proxy := { w.run.proxy with quiesced := true } } := by
        simp [Rma.step, act]
      have hr' := hnext hs trivial
      refine ⟨hr', fun j => ?_⟩
      rcases eq_or_ne j k with rfl | hne
      · rw [hcall] at hk'
        dsimp only
        rw [update_self]
        cases hk'
        exact ⟨rfl, fun q hlt => absurd hlt (Nat.not_lt_zero _)⟩
      · dsimp only
        rw [update_of_ne hne]
        exact (hk j).step hs hr'.books
    | _ =>
      refine ⟨hr, fun j => ?_⟩
      rcases eq_or_ne j k with rfl | hne
      · dsimp only
        rw [update_self]
        refine (hk j).next ?_ (fun q => (hr.books q).ring_sound (hr.published_lt q)) hk'
        have := hk j
        rw [hcall] at this
        exact this.1
      · dsimp only
        rw [update_of_ne hne]
        exact hk j

/-- **Below the wrap the ring loses nothing**, and a thread that has returned from `flagcxHeteroRmaProxyQuiesce` has left
nothing unconsumed. -/
theorem rma_ring_sound (h : QuiesceReachable c BelowWrap w) :
    (∀ p, RingSound c (w.run.proxy.peers p) (view p w.run.log)) ∧
    ∀ k, w.calls k = .returned → ∀ p, consumed (view p w.run.log) = published (view p w.run.log) := by
  obtain ⟨hr, hk⟩ := h.knows
  refine ⟨fun p => (hr.books p).ring_sound (hr.published_lt p), fun k hret p => ?_⟩
  have := hk k
  rw [hret] at this
  exact this.2.2 p

end Guarded

def checkBelowWrap (w : Quiescing 1) : QuiesceAction 1 → Bool
  | .proxy (.publish p) =>
    match (w.run.proxy.peers p).lock with
    | .admitted e => decide ((w.run.proxy.peers p).pi.toNat + e.descs.length < 2 ^ 32)
    | _ => true
  | _ => true

theorem checkBelowWrap_sound {w : Quiescing 1} {a : QuiesceAction 1} (h : checkBelowWrap w a = true) :
    ∀ b, a = .proxy b → BelowWrap w.run b := by
  rintro b rfl
  cases b with
  | publish p =>
    intro e he _
    simp only [checkBelowWrap, he] at h
    exact of_decide_eq_true h
  | _ => trivial

/-- A put goes through the ring, and a thread through the quiescence. -/
theorem rma_ring_sound_put : ∃ w : Quiescing 1, QuiesceReachable fourSlots BelowWrap w ∧ w.calls 0 = .returned ∧
    (published (view 0 w.run.log)).length = 1 ∧ consumed (view 0 w.run.log) = published (view 0 w.run.log) := by
  have hsome : ((exec (fun w a => if checkBelowWrap w a then quiesceStep fourSlots w a else none)
      ⟨⟨fourStart, []⟩, fun _ => .entered⟩
      ([.proxy (.admitCall 0 (.put ⟨0, 0, 8, 0, 0⟩ false 0 false) 0), .proxy (.publish 0)] ++
        replicate 11 (.proxy (.progress fairAnswers)) ++ replicate 7 (.call 0))).map fun w =>
      (decide ((published (view 0 w.run.log)).length = 1), match w.calls 0 with | .returned => true | _ => false)) =
      some (true, true) := by decide +kernel
  obtain ⟨w, hw, he⟩ := map_eq_some_iff.1 hsome
  rw [Prod.mk.injEq] at he
  have hret : w.calls 0 = .returned := by
    have := he.2
    split at this
    · assumption
    · cases this
  have hreach : QuiesceReachable fourSlots BelowWrap w :=
    ⟨_, _, fourSlots_init, .of_checked (fun _ _ => checkBelowWrap_sound) hw⟩
  exact ⟨w, hreach, hret, of_decide_eq_true he.1, (rma_ring_sound hreach).2 0 hret 0⟩

/-! ## A run past the wrap -/

def cell (peer : Peer) (board : CompletionScoreboard) (groups : Nat → ReleaseGroup) (count : UInt64) (pc : Pc 1) : Proxy 1 :=
  { peers := fun _ => peer, fabric := ⟨fun _ => board, groups⟩, groupCount := 0, completionCount := count,
    pendingError := false, rmaError := false, quiesced := false, pc := pc }

section Cell
variable {peer peer' : Peer} {board board' : CompletionScoreboard} {groups : Nat → ReleaseGroup} {count : UInt64}
  {pc pc' : Pc 1}

@[simp] theorem cell_setPeer : (cell peer board groups count pc).setPeer 0 peer' = cell peer' board groups count pc := by
  have h : update (fun _ : Fin 1 => peer) 0 peer' = fun _ => peer' := by
    funext p
    rw [Subsingleton.elim p 0, update_self]
  unfold Proxy.setPeer Core.setPeer cell
  rw [h]

theorem cell_onBoard (out : Tracker) : (⟨fun _ : Fin 1 => board, groups⟩ : Fabric (Fin 1)).onBoard 0 out =
    ⟨fun _ => out.scoreboard, out.groups⟩ := by
  have h : update (fun _ : Fin 1 => board) 0 out.scoreboard = fun _ => out.scoreboard := by
    funext p
    rw [Subsingleton.elim p 0, update_self]
  rw [Fabric.onBoard, h]

/-- A peer with an empty ring whose `q` operations are all done. -/
def restPeer (slots : Nat → Desc) (i : UInt32) (q : UInt64) : Peer :=
  { Peer.init with slots := slots, pi := i, ci := i, opSeq := q, doneSeq := q }

def admittedPeer (slots : Nat → Desc) (i : UInt32) (q : UInt64) : Peer :=
  { restPeer slots i q with lock := .admitted (.ipcGet ipcGetDesc) }

/-- The peer while its IPC GET waits in the ring. -/
def heldPeer (slots : Nat → Desc) (i : UInt32) (q : UInt64) : Peer := { restPeer slots i q with pi := i + 1, opSeq := q + 1 }

def restBoard (next : UInt64) : CompletionScoreboard := ⟨fun _ => completionEntryReset, 8, 0, 1, next, .success⟩

variable {slots : Nat → Desc} {i : UInt32} {q : UInt64}

theorem cell_admitCall (g : UInt64) : admitCall fourSlots (cell (restPeer slots i q) board groups count pc) 0 .getIpc g =
    some (cell (admittedPeer slots i q) board groups count pc) := by
  have hspace : hasSpace fourSlots (restPeer slots i q) (.ipcGet ipcGetDesc) = true := by
    simp [hasSpace, circularBufFull, restPeer, fourSlots]
  unfold admitCall
  rw [if_pos ⟨rfl, rfl, rfl, rfl, hspace⟩]
  rw [cell_setPeer]
  rfl

theorem trackSubmit_rest (hq : q ≠ uint64Max) (context : SubmitContext) (hc : context.sequence = q)
    (hg : context.generation = 1) (hid : context.groupId = 0) :
    trackSubmit ⟨restBoard q, groups⟩ context none = (.success, ⟨(restBoard q).submitEntry context none, groups⟩) := by
  unfold trackSubmit
  simp [restBoard, hc, hq, hg, hid, CompletionScoreboard.entryAt, completionEntryReset]

/-- The descriptor of the `q`-th IPC GET. -/
def ipcAt (q : UInt64) : Desc := prepared q ipcGetDesc

theorem ipcAt_isData (q : UInt64) : (ipcAt q).isData = true := by
  show (submitData &&& submitData != 0) = true
  decide

theorem ipcAt_groupId (q : UInt64) : (ipcAt q).submitContext.groupId = 0 := by
  rw [Submission.submitContext, ipcAt_isData]
  rfl

theorem ipcAt_trackedGroup (q : UInt64) : (ipcAt q).trackedGroup = none := by
  rw [Submission.trackedGroup, ipcAt_isData]
  rfl

/-- The scoreboard while the operation of sequence `q` is outstanding. -/
def heldBoard (q : UInt64) : CompletionScoreboard := (restBoard q).submitEntry (ipcAt q).submitContext none

theorem cell_submit (hq : q ≠ uint64Max) : (⟨fun _ : Fin 1 => restBoard q, groups⟩ : Fabric (Fin 1)).call
    (.submit 0 (ipcAt q).submitContext (ipcAt q).trackedGroup) = (.success, ⟨fun _ => heldBoard q, groups⟩) := by
  have htrack : trackSubmit ⟨restBoard q, groups⟩ (ipcAt q).submitContext none = _ :=
    trackSubmit_rest hq _ rfl rfl (ipcAt_groupId q)
  rw [ipcAt_trackedGroup]
  show (_, _) = _
  rw [htrack, cell_onBoard]
  rfl

theorem cell_publish (hq : q + 1 ≠ uint64Max) :
    publish fourSlots (cell (admittedPeer slots i q) (restBoard (q + 1)) groups count pc) 0 =
      some (.success, cell { heldPeer (update slots (fourSlots.slot i) (ipcAt (q + 1))) i q with
        lock := .arming i } (heldBoard (q + 1)) groups count pc,
        [.published 0 (ipcAt (q + 1)).toSubmission none]) := by
  have hprep : prepareDescs 0 (cell (admittedPeer slots i q) (restBoard (q + 1)) groups count pc) [ipcGetDesc] = (.success, cell { restPeer slots i q with
        opSeq := q + 1, lock := .admitted (.ipcGet ipcGetDesc) } (heldBoard (q + 1)) groups count pc, [ipcAt (q + 1)]) := by
    have hone : prepareDesc (cell (admittedPeer slots i q) (restBoard (q + 1)) groups count pc) 0 ipcGetDesc = (.success, cell { restPeer slots i q with
          opSeq := q + 1, lock := .admitted (.ipcGet ipcGetDesc) } (heldBoard (q + 1)) groups count pc, ipcAt (q + 1)) := by
      have hsubmit : (⟨fun _ => restBoard (q + 1), groups⟩ : Fabric (Fin 1)).call _ = _ := cell_submit hq
      unfold prepareDesc
      dsimp only
      have hfab : (cell (admittedPeer slots i q) (restBoard (q + 1)) groups count pc).fabric = ⟨fun _ => restBoard (q + 1), groups⟩ := rfl
      have hd : prepared (((cell (admittedPeer slots i q) (restBoard (q + 1)) groups count pc).peers 0).opSeq + 1) ipcGetDesc = ipcAt (q + 1) := rfl
      rw [hfab, hd, hsubmit, if_pos rfl]
      refine congrArg (fun s => (Result.success, s, ipcAt (q + 1))) ?_
      exact cell_setPeer
    unfold prepareDescs
    rw [hone]
    rfl
  have hlock : ((cell (admittedPeer slots i q) (restBoard (q + 1)) groups count pc).peers 0).lock = .admitted (.ipcGet ipcGetDesc) := rfl
  unfold publish
  rw [hlock]
  dsimp only
  rw [hprep]
  unfold store
  rw [cell_setPeer]
  rfl

theorem heldBoard_complete (q : UInt64) : (heldBoard q).completeEntry q .success =
    { restBoard q with
      entries := update (fun _ => completionEntryReset) ((restBoard q).slot q)
        ⟨(ipcAt q).submitContext, none, .success, .complete⟩
      inFlight := 1 } := by
  have hentry : (heldBoard q).entryAt q = ⟨(ipcAt q).submitContext, none, .success, .pending⟩ := update_self ..
  unfold CompletionScoreboard.completeEntry CompletionScoreboard.setEntry
  rw [hentry]
  show CompletionScoreboard.mk (update (update _ ((restBoard q).slot q) _) ((restBoard q).slot q) _) _ _ _ _ _ = _
  rw [update_idem]
  rfl

theorem heldBoard_retire (q : UInt64) : ((heldBoard q).completeEntry q .success).retire 1 0 = (restBoard (q + 1), 1) := by
  rw [heldBoard_complete, CompletionScoreboard.retire, if_pos]
  · show (CompletionScoreboard.mk (update (update _ ((restBoard q).slot q) _) ((restBoard q).slot q) _) _ _ _ _ _, _) = _
    rw [update_idem, update_eq_self_iff.2 rfl]
    rfl
  · have hentry : ∀ e, update (fun _ => completionEntryReset) ((restBoard q).slot q) e ((restBoard q).slot q) = e :=
      fun e => update_self ..
    refine ⟨?_, ?_, ?_⟩
    · exact congrArg CompletionEntry.state (hentry _)
    · exact congrArg (fun e => e.context.generation) (hentry _)
    · exact congrArg (fun e => e.context.sequence) (hentry _)

theorem trackCompletion_held (q : UInt64) :
    trackCompletion ⟨heldBoard q, groups⟩ (ipcAt q).submitContext .success = (.success, 1, ⟨restBoard (q + 1), groups⟩) := by
  have hentry : (heldBoard q).entryAt q = ⟨(ipcAt q).submitContext, none, .success, .pending⟩ := update_self ..
  have hnames : namesPending (heldBoard q) (ipcAt q).submitContext := by
    refine ⟨?_, rfl, UInt64.le_refl _, ?_, ?_, ?_⟩
    · show (8 : UInt32) ≠ 0
      decide
    · show (q - q).toNat < _
      rw [UInt64.sub_self]
      show 0 < (8 : UInt32).toNat
      decide
    · exact congrArg CompletionEntry.state hentry
    · show submitContextMatches ((heldBoard q).entryAt q).context _ = true
      rw [hentry]
      simp [submitContextMatches]
  have hgroup : ((heldBoard q).entryAt (ipcAt q).submitContext.sequence).releaseGroup = none :=
    congrArg CompletionEntry.releaseGroup hentry
  unfold trackCompletion
  rw [if_neg (not_not.2 hnames), if_neg (by simp), hgroup]
  show (Result.success, (CompletionScoreboard.retire 1 ((heldBoard q).completeEntry q .success) 0).2,
    (⟨(CompletionScoreboard.retire 1 ((heldBoard q).completeEntry q .success) 0).1, groups⟩ : Tracker)) = _
  rw [heldBoard_retire]

theorem cell_arm (ipcStatus : Result) :
    arm fourSlots (cell { heldPeer slots i q with lock := .arming i } board groups count pc) 0 ipcStatus =
      some (cell (heldPeer (update slots (fourSlots.slot i)
        { slots (fourSlots.slot i) with ipcStatus := ipcStatus, eventArmed := true }) i q) board groups count pc) := by
  show some (Proxy.setPeer _ 0 _) = _
  rw [cell_setPeer]
  rfl

theorem cell_publishScoreboard (hpos : 0 < board.nextSequence) (he : board.firstError = .success) (k : UInt64) :
    publishScoreboard (cell peer board groups count pc) 0 k = cell { peer with
      doneSeq := if peer.doneSeq < board.nextSequence - 1 then board.nextSequence - 1 else peer.doneSeq }
      board groups (count + k) pc := by
  have hboard : (cell peer board groups count pc).fabric.boards 0 = board := rfl
  unfold publishScoreboard
  dsimp only
  rw [hboard, if_pos hpos, cell_setPeer, if_neg (by simp [he])]
  rfl

theorem cell_settle {d : Submission} (hd : d = (ipcAt (q + 1)).toSubmission) (hq : q.toNat < 2 ^ 32) (h : Desc)
    (hh : h.toSubmission = d) :
    settle (cell (heldPeer slots i q) (heldBoard (q + 1)) groups count pc) 0 h .success =
      (cell (restPeer slots (i + 1) (q + 1)) (restBoard (q + 1 + 1)) groups (count + 1) pc,
        [.consumed 0 d, .completed 0 d .success .success]) := by
  have hone : (q + 1).toNat = q.toNat + 1 := by exact Nat.mod_eq_of_lt (by simp; omega)
  have htwo : (q + 1 + 1).toNat = q.toNat + 2 := by
    rw [UInt64.toNat_add, hone]
    exact Nat.mod_eq_of_lt (by simp; omega)
  have hpos : (0 : UInt64) < q + 1 + 1 := by
    rw [UInt64.lt_iff_toNat_lt, htwo]
    exact Nat.succ_pos _
  have hback : q + 1 + 1 - 1 = q + 1 := UInt64.add_sub_cancel ..
  have hlt : q < q + 1 := by
    rw [UInt64.lt_iff_toNat_lt, hone]
    omega
  have hcall : (⟨fun _ : Fin 1 => heldBoard (q + 1), groups⟩ : Fabric (Fin 1)).call (.completion 0 d.submitContext .success) =
      (.success, ⟨fun _ => restBoard (q + 1 + 1), groups⟩) := by
    subst hd
    show (_, _) = _
    rw [trackCompletion_held, cell_onBoard]
  have hcompletes : (Result.success = .success ∧ d.completesApiOperation = true) := by
    subst hd
    exact ⟨rfl, rfl⟩
  unfold settle
  dsimp only
  rw [cell_setPeer, hh]
  unfold completeDesc
  dsimp only
  have hfab : ∀ peer : Peer, (cell peer (heldBoard (q + 1)) groups count pc).fabric = ⟨fun _ => heldBoard (q + 1), groups⟩ :=
    fun _ => rfl
  rw [hfab, hcall, if_neg (by simp), if_neg (by simp), if_pos hcompletes]
  refine Prod.ext ?_ rfl
  show publishScoreboard (cell _ (restBoard (q + 1 + 1)) groups count pc) 0 1 = _
  rw [cell_publishScoreboard hpos rfl]
  show cell { restPeer slots (i + 1) q with
    opSeq := q + 1, doneSeq := if q < q + 1 + 1 - 1 then q + 1 + 1 - 1 else q } _ groups (count + 1) pc = _
  rw [hback, if_pos hlt]
  rfl

theorem eventGate_ipc {d : Desc} (b : Bool)
    (hev : d.streamEvent = true) (harmed : d.eventArmed = true) (hipc : d.ipcStatus = .success)
    (hans : ans.event = .success) (ht : d.type = .ipcGet) (hdone : ¬ (s.peers p).doneSeq < d.opSeq - 1) :
    eventGate c s p b d ans = ({ (settle s p d .success).1 with pc := .ring p b }, (settle s p d .success).2) := by
  unfold eventGate
  simp [hev, harmed, hipc, hans, ht, hdone]

def armedAt (q : UInt64) : Desc := { ipcAt q with ipcStatus := .success, eventArmed := true }

theorem cell_pass (hq : q.toNat < 2 ^ 32) (h : slots (fourSlots.slot i) = armedAt (q + 1)) (log : List (Note 1))
    (hi : i.toNat + 1 < 2 ^ 32) :
    exec (step fourSlots) ⟨cell (heldPeer slots i q) (heldBoard (q + 1)) groups count .idle, log⟩
      (replicate 8 (.progress fairAnswers)) =
    some ⟨cell (restPeer slots (i + 1) (q + 1)) (restBoard (q + 1 + 1)) groups (count + 1) .idle,
      log ++ [.consumed 0 (ipcAt (q + 1)).toSubmission, .completed 0 (ipcAt (q + 1)).toSubmission .success .success]⟩ := by
  have hprune : pruneGetVisibilityDomains (heldPeer slots i q) = heldPeer slots i q := by
    unfold pruneGetVisibilityDomains
    simp [heldPeer, restPeer, Peer.init]
  have hne : i ≠ i + 1 := by
    intro he
    have := congrArg UInt32.toNat he
    rw [UInt32.toNat_add, UInt32.toNat_one, Nat.mod_eq_of_lt (by omega)] at this
    omega
  have hlt : ¬ i + 1 ≤ i := by
    rw [UInt32.le_iff_toNat_le, UInt32.toNat_add, UInt32.toNat_one, Nat.mod_eq_of_lt (by omega)]
    omega
  have hvisible : progress fourSlots (cell (heldPeer slots i q) (heldBoard (q + 1)) groups count (.visible 0 0)) fairAnswers =
      some (cell (heldPeer slots i q) (heldBoard (q + 1)) groups count (.check 0), []) := by
    show some (_, _) = _
    rw [show (cell (heldPeer slots i q) (heldBoard (q + 1)) groups count (.visible 0 0)).peers 0 = heldPeer slots i q from rfl,
      hprune, cell_setPeer]
    rfl
  have hcheck : progress fourSlots (cell (heldPeer slots i q) (heldBoard (q + 1)) groups count (.check 0)) fairAnswers =
      some (cell (heldPeer slots i q) (heldBoard (q + 1)) groups count (.ring 0 true), []) := by
    show some (checkPeer _ _ _ _, _) = _
    unfold checkPeer
    rw [if_neg (by simp [cell]), if_pos ⟨hne, .inl rfl⟩]
    rfl
  have hring : progress fourSlots (cell (heldPeer slots i q) (heldBoard (q + 1)) groups count (.ring 0 true)) fairAnswers =
      some (cell (restPeer slots (i + 1) (q + 1)) (restBoard (q + 1 + 1)) groups (count + 1) (.ring 0 true),
        [.consumed 0 (ipcAt (q + 1)).toSubmission, .completed 0 (ipcAt (q + 1)).toSubmission .success .success]) := by
    have hempty : ¬ (circularBufEmpty (heldPeer slots i q) = true ∨ fourSlots.queueSize ≤ (heldPeer slots i q).inFlight) := by
      rintro (he | hf)
      · rw [circularBufEmpty, decide_eq_true_iff] at he
        exact hlt he
      · exact absurd hf (by show ¬ (4 : UInt32) ≤ 0; decide)
    have hdone : ¬ q < q + 1 - 1 := by
      rw [UInt64.add_sub_cancel]
      exact UInt64.lt_irrefl q
    have hpeer : (cell (heldPeer slots i q) (heldBoard (q + 1)) groups count (.ring 0 true)).peers 0 = heldPeer slots i q :=
      rfl
    have hslot : (heldPeer slots i q).slots (fourSlots.slot (heldPeer slots i q).ci) = armedAt (q + 1) := h
    show some (ringEntry _ _ _ _ _) = _
    unfold ringEntry
    rw [hpeer, if_neg hempty, hslot, if_neg (by simp [armedAt, ipcAt, prepared, ipcGetDesc]),
      eventGate_ipc true rfl rfl rfl rfl rfl hdone, cell_settle rfl hq (armedAt (q + 1)) rfl]
    rfl
  have hend : progress fourSlots (cell (restPeer slots (i + 1) (q + 1)) (restBoard (q + 1 + 1)) groups (count + 1)
      (.ring 0 true)) fairAnswers =
      some (cell (restPeer slots (i + 1) (q + 1)) (restBoard (q + 1 + 1)) groups (count + 1) .finish, []) := by
    have hempty : circularBufEmpty (restPeer slots (i + 1) (q + 1)) = true := by
      rw [circularBufEmpty, decide_eq_true_iff]
      exact UInt32.le_refl _
    show some (ringEntry _ _ _ _ _) = _
    unfold ringEntry
    rw [if_pos (.inl hempty)]
    rfl
  -- one step after the other
  have hidle : progress fourSlots (cell (heldPeer slots i q) (heldBoard (q + 1)) groups count .idle) fairAnswers =
      some (cell (heldPeer slots i q) (heldBoard (q + 1)) groups count (.poll 0 0), []) := rfl
  have hpoll : progress fourSlots (cell (heldPeer slots i q) (heldBoard (q + 1)) groups count (.poll 0 0)) fairAnswers =
      some (cell (heldPeer slots i q) (heldBoard (q + 1)) groups count (.domains 0 0), []) := rfl
  have hdomains : progress fourSlots (cell (heldPeer slots i q) (heldBoard (q + 1)) groups count (.domains 0 0)) fairAnswers =
      some (cell (heldPeer slots i q) (heldBoard (q + 1)) groups count (.visible 0 0), []) := rfl
  have hfinish : progress fourSlots (cell (restPeer slots (i + 1) (q + 1)) (restBoard (q + 1 + 1)) groups (count + 1) .finish)
      fairAnswers = some (cell (restPeer slots (i + 1) (q + 1)) (restBoard (q + 1 + 1)) groups (count + 1) .idle, []) := rfl
  simp [exec, step, act, replicate, hidle, hpoll, hdomains, hvisible, hcheck, hring, hend, hfinish]

theorem cell_cycle (slots : Nat → Desc) (groups : Nat → ReleaseGroup) (count : UInt64) (i : UInt32) (q : UInt64)
    (hq : q.toNat < 2 ^ 32) (log : List (Note 1)) :
    ∃ slots' log₁ log₂, exec (step fourSlots) ⟨cell (restPeer slots i q) (restBoard (q + 1)) groups count .idle, log⟩
        [.admitCall 0 .getIpc 0, .publish 0, .arm 0 .success] =
      some ⟨cell (heldPeer slots' i q) (heldBoard (q + 1)) groups count .idle, log₁⟩ ∧
    (i.toNat + 1 < 2 ^ 32 → exec (step fourSlots) ⟨cell (heldPeer slots' i q) (heldBoard (q + 1)) groups count .idle, log₁⟩
        (replicate 8 (.progress fairAnswers)) =
      some ⟨cell (restPeer slots' (i + 1) (q + 1)) (restBoard (q + 1 + 1)) groups (count + 1) .idle, log₂⟩) := by
  have hmax : q + 1 ≠ uint64Max := by
    intro he
    have := congrArg UInt64.toNat he
    have hm : uint64Max.toNat = 2 ^ 64 - 1 := by decide
    rw [UInt64.toNat_add, UInt64.toNat_one, Nat.mod_eq_of_lt (by omega), hm] at this
    omega
  have hadmit : admitCall fourSlots (cell (restPeer slots i q) (restBoard (q + 1)) groups count .idle) 0 .getIpc 0 = _ :=
    cell_admitCall 0
  have hpub : publish fourSlots (cell (admittedPeer slots i q)
    (restBoard (q + 1)) groups count .idle) 0 = _ := cell_publish hmax
  let held := update slots (fourSlots.slot i) (ipcAt (q + 1))
  let armed := update held (fourSlots.slot i) (armedAt (q + 1))
  have harm : arm fourSlots (cell { heldPeer (update slots (fourSlots.slot i) (ipcAt (q + 1))) i q with
      lock := .arming i } (heldBoard (q + 1)) groups count .idle) 0 .success = _ := cell_arm .success
  have harmed : armed (fourSlots.slot i) = armedAt (q + 1) := update_self ..
  rw [update_self] at harm
  have hthree : exec (step fourSlots) ⟨cell (restPeer slots i q) (restBoard (q + 1)) groups count .idle, log⟩
      [.admitCall 0 .getIpc 0, .publish 0, .arm 0 .success] = some ⟨cell (heldPeer armed i q) (heldBoard (q + 1)) groups count
        .idle, log ++ [.published 0 (ipcAt (q + 1)).toSubmission none]⟩ := by
    simp only [exec, step, act, hadmit, hpub, harm, map_some, bind_some, append_nil]
    rfl
  exact ⟨armed, _, _, hthree, cell_pass hq harmed _⟩

theorem cell_reach (groups : Nat → ReleaseGroup) (k : Nat) (hk : k < 2 ^ 32) :
    ∃ slots count log, Reach (step fourSlots) (fun _ _ => True)
      ⟨cell (restPeer (fun _ => Desc.zero) 0 0) (restBoard 1) groups 0 .start, []⟩
      ⟨cell (restPeer slots (UInt32.ofNat k) (UInt64.ofNat k)) (restBoard (UInt64.ofNat k + 1)) groups count .idle, log⟩ := by
  induction k with
  | zero =>
    refine ⟨fun _ => Desc.zero, 0, [], .next (.progress fairAnswers) .init trivial ?_⟩
    rfl
  | succ k ih =>
    obtain ⟨slots, count, log, hr⟩ := ih (by omega)
    have hi : (UInt32.ofNat k).toNat = k := by exact Nat.mod_eq_of_lt (by omega)
    have hq : (UInt64.ofNat k).toNat = k := by exact Nat.mod_eq_of_lt (by omega)
    obtain ⟨slots', log₁, log₂, hthree, hpass⟩ := cell_cycle slots groups count (UInt32.ofNat k) (UInt64.ofNat k)
      (by omega) log
    have hi' : UInt32.ofNat (k + 1) = UInt32.ofNat k + 1 := UInt32.ofNat_add ..
    have hq' : UInt64.ofNat (k + 1) = UInt64.ofNat k + 1 := UInt64.ofNat_add ..
    rw [hi', hq']
    exact ⟨_, _, _, (hr.trans (.of_exec (fun _ _ _ => trivial) hthree)).trans
      (.of_exec (fun _ _ _ => trivial) (hpass (by omega)))⟩

end Cell

theorem Reach.quiescing {r r' : Run n} (h : Reach (step c) (fun _ _ => True) r r') (calls : Nat → Quiesce n) :
    Reach (quiesceStep c) (fun _ _ => True) ⟨r, calls⟩ ⟨r', calls⟩ := by
  induction h with
  | init => exact .init
  | next a _ _ hs ih =>
    refine .next (.proxy a) ih trivial ?_
    show Option.map _ (step c _ a) = _
    rw [hs]
    rfl

theorem ring_wraps : ∃ w : Quiescing 1, QuiesceReachable fourSlots (fun _ _ => True) w ∧
    circularBufEmpty (w.run.proxy.peers 0) = true ∧ w.calls 0 = .returned ∧
    consumed (view 0 w.run.log) ≠ published (view 0 w.run.log) := by
  let groups : Nat → ReleaseGroup := fun _ => ⟨0, 0, .opened, 0, 0, false, .success⟩
  obtain ⟨slots, count, log, hr⟩ := cell_reach groups (2 ^ 32 - 1) (by omega)
  obtain ⟨slots', log₁, log₂, hthree, -⟩ := cell_cycle slots groups count (UInt32.ofNat (2 ^ 32 - 1))
    (UInt64.ofNat (2 ^ 32 - 1)) (by decide) log
  have hrun := hr.trans (.of_exec (fun _ _ _ => trivial) hthree)
  have hinit : Proxy.init fourSlots groups = .ok (cell (restPeer (fun _ => Desc.zero) 0 0) (restBoard 1) groups 0 .start) :=
    rfl
  have hbook := Reachable.books ⟨_, groups, hinit, hrun⟩ 0
  -- the counters, from the books
  have hpub : (published (view 0 log₁)).length = 2 ^ 32 := by
    rw [← hbook.count]
    show (UInt64.ofNat (2 ^ 32 - 1) + 1).toNat = _
    decide
  have hle : (consumed (view 0 log₁)).length ≤ 2 ^ 32 := hpub ▸ hbook.ring.le
  have hcons : (consumed (view 0 log₁)).length < 2 ^ 32 := by
    have hci : (UInt32.ofNat (2 ^ 32 - 1)).toNat = (consumed (view 0 log₁)).length % 2 ^ 32 := hbook.ring.consumer
    have hnum : (UInt32.ofNat (2 ^ 32 - 1)).toNat = 2 ^ 32 - 1 := by decide
    omega
  obtain ⟨hempty, hne⟩ := hbook.empty_wrapped hpub.ge hcons
  -- a thread goes through the quiescence
  let proxy := cell (heldPeer slots' (UInt32.ofNat (2 ^ 32 - 1)) (UInt64.ofNat (2 ^ 32 - 1)))
    (heldBoard (UInt64.ofNat (2 ^ 32 - 1) + 1)) groups count .idle
  obtain ⟨calls, hexec, hret⟩ : ∃ calls, exec (quiesceStep fourSlots) ⟨⟨proxy, log₁⟩, fun _ => .entered⟩
      (replicate 7 (.call 0)) = some ⟨⟨{ proxy with quiesced := true }, log₁⟩, calls⟩ ∧ calls 0 = .returned := by
    refine ⟨update (update (update (update (update (update
      (update (fun _ => .entered) 0 (.sweep 0)) 0 (.sweep 1)) 0 (.scan 0)) 0
      (.readCi 0 (UInt32.ofNat (2 ^ 32 - 1) + 1))) 0
      (.readFlight 0 (UInt32.ofNat (2 ^ 32 - 1) + 1) (UInt32.ofNat (2 ^ 32 - 1)))) 0 (.scan 1)) 0 .returned, rfl, ?_⟩
    exact update_self ..
  have hcalls := (Reach.quiescing hrun fun _ => .entered).trans (.of_exec (fun _ _ _ => trivial) hexec)
  exact ⟨_, ⟨_, groups, hinit, hcalls.mono fun _ _ _ _ _ => trivial⟩, hempty, hret, hne⟩

/-- The ring is not sound in every run. -/
theorem rma_ring_unsound : ¬ ∀ w : Quiescing 1, QuiesceReachable fourSlots (fun _ _ => True) w →
    (∀ p, RingSound fourSlots (w.run.proxy.peers p) (view p w.run.log)) ∧
    ∀ k, w.calls k = .returned → ∀ p, consumed (view p w.run.log) = published (view p w.run.log) := by
  intro h
  obtain ⟨w, hw, -, hret, hne⟩ := ring_wraps
  exact hne ((h w hw).2 0 hret 0)

end FlagCX.Rma
