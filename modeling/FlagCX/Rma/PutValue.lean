import FlagCX.Rma.Origin

/-!
# Put-values and the staging slot (`flagcxRmaProxyPostOp`, `FLAGCX_RMA_PUT_VALUE`)

A put-value travels through the staging slot of its peer, which is written at its post and read by the network until
the request completes. `Overwrites` says that a post changes a value that is still to be read; where none does, every
put-value delivers its own (`rma_putValue`), and after one that does, the network may read the wrong value.
-/

namespace FlagCX.Rma
open List Function Option

open Net Lib

variable {n : Nat} {c : Config n}

/-! ## Posts of put-values -/

/-- The next iteration of the progress thread posts the put-value `d`, at the head of the ring of `p`. -/
structure PostsValue (c : Config n) (s : Proxy n) (p : Fin n) (d : Desc) : Prop where
  pc : s.pc = .ring p true
  nonempty : circularBufEmpty (s.peers p) = false
  room : (s.peers p).inFlight < c.queueSize
  head : (s.peers p).slots (c.slot (s.peers p).ci) = d
  type : d.type = .putValue
  ready : d.opSeq ≤ (s.peers p).readySeq
  staging : c.hasStaging = true

/-- `e` is a put-value whose bytes the network may still read. -/
def Peer.Unread (peer : Peer) (e : Desc) : Prop := e ∈ peer.inProgress ∧ e.type = .putValue ∧ e.request = true

/-- The post of `d` writes another value into the staging slot of `e`. -/
def Overwrites (c : Config n) (s : Proxy n) (p : Fin n) (d e : Desc) : Prop :=
  PostsValue c s p d ∧ (s.peers p).Unread e ∧ e.putValue ≠ d.putValue

/-- No put-value is posted over one with another value. -/
def NoneOverwritten (c : Config n) (r : Run n) : Action n → Prop
  | .progress _ => ∀ p d e, ¬ Overwrites c r.proxy p d e
  | _ => True

def Core.Staged (x : Core n) : Prop := ∀ p e, (x.peers p).Unread e → (x.peers p).staging = e.putValue

def DeliversOwn (log : List (Note n)) : Prop := ∀ p d v, .delivered p d v ∈ log → v = d.putValue

def NoValue (ns : List (Note n)) : Prop := ∀ p d call result, .handed p d call result ∈ ns → d.type ≠ .putValue

theorem noValue_nil : NoValue ([] : List (Note n)) := fun _ _ _ _ h => absurd h not_mem_nil

theorem noValue_append {l m : List (Note n)} : NoValue (l ++ m) ↔ NoValue l ∧ NoValue m := by
  refine ⟨fun h => ⟨fun p d k r hm => h p d k r (mem_append_left _ hm),
    fun p d k r hm => h p d k r (mem_append_right _ hm)⟩, ?_⟩
  rintro ⟨hl, hm⟩ p d k r hin
  rcases mem_append.1 hin with hin | hin
  · exact hl p d k r hin
  · exact hm p d k r hin

theorem noValue_of_forall {l : List (Note n)} (h : ∀ v ∈ l, ¬ v.Hands) : NoValue l :=
  fun _ _ _ _ hm => absurd trivial (h _ hm)

/-! ## Moves -/

section Moves
variable {x y : Core n} {a : Action n} {log ns : List (Note n)} {p : Fin n}

theorem staged_setPeer {peer : Peer} (h : x.Staged) (hp : ∀ e, peer.Unread e → peer.staging = e.putValue) :
    (x.setPeer p peer).Staged := by
  intro q e he
  rw [Core.setPeer_peers] at he ⊢
  split_ifs at he ⊢ with hq
  · exact hp e he
  · exact h q e he

theorem Move.staged (h : Move c x a y ns) (hx : x.Staged) (hno : NoValue ns) : y.Staged := by
  -- the slot is left, and what is unread was unread, or is a put-value with its value in the slot
  have keep : ∀ (p : Fin n) {peer : Peer}, peer.staging = (x.peers p).staging →
      (∀ e, peer.Unread e → (∃ e', (x.peers p).Unread e' ∧ e'.putValue = e.putValue) ∨
        (x.peers p).staging = e.putValue) → (x.setPeer p peer).Staged := by
    intro p peer hs hmem
    refine staged_setPeer hx fun e he => ?_
    rw [hs]
    rcases hmem e he with ⟨e', he', heq⟩ | heq
    · exact (hx p e' he').trans heq
    · exact heq
  have same : ∀ {p : Fin n} {e : Desc}, (x.peers p).Unread e → ∃ e', (x.peers p).Unread e' ∧ e'.putValue = e.putValue :=
    fun he => ⟨_, he, rfl⟩
  cases h with
  | hand p ds call result staging hheads hready hrelease hstaging =>
    rcases hstaging with ⟨rfl, -⟩ | ⟨d, rfl, ht, -⟩
    · exact keep p rfl fun e he => .inl (same he)
    · exact absurd ht (hno p d.toSubmission (call d) result (mem_singleton_self _))
  | take p hs ds hheads hroom hcarried hflush hrelease hstaging =>
    refine keep p rfl ?_
    rintro e ⟨hin, ht, hreq⟩
    rcases mem_append.1 hin with hin | hin
    · exact .inl (same ⟨hin, ht, hreq⟩)
    · exact .inr (hstaging e hin ht hreq)
  | takeTracked p h' request index getSequence domain hheads hroom hget =>
    refine keep p rfl ?_
    rintro e ⟨hin, ht, hreq⟩
    rcases mem_append.1 hin with hin | hin
    · exact .inl (same ⟨hin, ht, hreq⟩)
    · rw [mem_singleton.1 hin] at ht
      exact absurd (hget.symm.trans ht) nofun
  | retire p i d result =>
    obtain ⟨doneSeq, hpeers⟩ := x.retire_peers p i d.toSubmission result
    intro q e he
    rw [hpeers] at he ⊢
    refine keep p ?_ ?_ q e he
    · rfl
    · rintro e' ⟨hin, ht, hreq⟩
      exact .inl (same ⟨mem_of_mem_eraseIdx hin, ht, hreq⟩)
  | settle p d result =>
    obtain ⟨doneSeq, hpeers⟩ := x.settle_peers p d.toSubmission result
    intro q e he
    rw [hpeers] at he ⊢
    refine keep p ?_ ?_ q e he
    · rfl
    · exact fun e' he' => .inl (same he')
  | dataDone p i d result =>
    refine keep p rfl ?_
    rintro e ⟨hin, ht, hreq⟩
    rcases mem_or_eq_of_mem_set hin with hin | rfl
    · exact .inl (same ⟨hin, ht, hreq⟩)
    · cases hreq
  | domain p index ans pendingError =>
    refine keep p rfl ?_
    rintro e ⟨hin, ht, hreq⟩
    -- the walk marks requests with errors at most
    obtain ⟨d, hd, hone⟩ := marked_source (walkDomain_walks (x.peers p) pendingError).1 hin
    rw [hone.same] at ht hreq ⊢
    exact .inl ⟨d, ⟨hd, ht, hreq⟩, rfl⟩
  | deliver => exact hx
  | _ p => exact keep p rfl fun e he => .inl (same he)

theorem Moves.staged (h : Moves c a x y ns) (hx : x.Staged) (hno : NoValue ns) : y.Staged := by
  induction h with
  | nil => exact hx
  | one hm => exact hm.staged hx hno
  | cons _ hm _ ih =>
    obtain ⟨h1, h2⟩ := noValue_append.1 hno
    exact ih (hm.staged hx h1) h2

def Note.Delivers : Note n → Prop
  | .delivered _ _ _ => True
  | _ => False

theorem Move.party (h : Move c x a y ns) :
    ∀ v ∈ ns, (v.Hands → ∃ ans, a = .progress ans) ∧ (v.Delivers → ∃ p i, a = .dmaRead p i) := by
  intro v hv
  cases h with
  | publish p e f f' | take p hs ds =>
    obtain ⟨d, -, rfl⟩ := mem_map.1 hv
    exact ⟨False.elim, False.elim⟩
  | hand p ds call result =>
    obtain ⟨d, -, rfl⟩ := mem_map.1 hv
    exact ⟨fun _ => ⟨_, rfl⟩, False.elim⟩
  | domain p index ans pendingError =>
    rcases (walkDomain_walks (x.peers p) pendingError).2 v hv with ⟨_, _, _, _, _, rfl⟩ | ⟨_, _, _, _, rfl⟩
    · exact ⟨False.elim, False.elim⟩
    · exact ⟨False.elim, False.elim⟩
  | deliver p i d =>
    rw [mem_singleton.1 hv]
    exact ⟨False.elim, fun _ => ⟨p, i, rfl⟩⟩
  | settle p d result =>
    rcases mem_cons.1 hv with rfl | hv
    · exact ⟨False.elim, False.elim⟩
    · rw [mem_singleton.1 hv]
      exact ⟨False.elim, False.elim⟩
  | signal | takeTracked | retire | dataDone =>
    rw [mem_singleton.1 hv]
    exact ⟨False.elim, False.elim⟩
  | admitCall | admitGroup | unpublish | arm | openDomain | prune => exact absurd hv not_mem_nil

theorem Moves.party (h : Moves c a x y ns) :
    ∀ v ∈ ns, (v.Hands → ∃ ans, a = .progress ans) ∧ (v.Delivers → ∃ p i, a = .dmaRead p i) := by
  induction h with
  | nil => exact fun v hv => absurd hv not_mem_nil
  | one hm => exact hm.party
  | cons _ hm _ ih =>
    intro v hv
    rcases mem_append.1 hv with hv | hv
    · exact hm.party v hv
    · exact ih v hv

end Moves

/-! ## Steps of the progress thread -/

section Steps
variable {s : Proxy n} {p : Fin n} {d : Desc} {ans : Answers}

theorem noValue_singleton {v : Note n} (hv : ¬ v.Hands) : NoValue [v] :=
  noValue_of_forall fun _ hw => (mem_singleton.1 hw) ▸ hv

theorem pollEntry_noValue (i : Nat) (d : Desc) : NoValue (pollEntry s p i d ans).2 := by
  unfold pollEntry
  dsimp only
  by_cases hstage : d.completionStage = .flushPending
  · rw [if_pos hstage]
    exact noValue_nil
  · generalize (if (d.request && ans.test != .success) = true then ans.test else d.completionResult) = result
    split_ifs
    · exact noValue_nil
    · exact noValue_singleton id
    · exact noValue_singleton id

theorem progressGetVisibilityDomain_noValue (index : Nat) : NoValue (progressGetVisibilityDomain s p index ans).2 := by
  unfold progressGetVisibilityDomain
  dsimp only
  split_ifs
  · exact noValue_nil
  · refine noValue_of_forall fun v hv hh => ?_
    rcases (walkDomain_walks (s.peers p) s.pendingError).2 v hv with ⟨_, _, _, _, _, rfl⟩ | ⟨_, _, _, _, rfl⟩
    · exact hh
    · exact hh

theorem visibleEntry_noValue (i : Nat) (d : Desc) : NoValue (visibleEntry s p i d).2 := by
  unfold visibleEntry
  split
  · exact noValue_nil
  · split_ifs
    · exact noValue_nil
    · exact noValue_singleton id

theorem settle_noValue (d : Desc) (result : Result) : NoValue (settle s p d result).2 :=
  noValue_append.2 ⟨noValue_singleton id, noValue_singleton id⟩

theorem progress_noValue {out : Proxy n × List (Note n)} (h : progress c s ans = some out)
    (hpc : ∀ p b, s.pc ≠ .ring p b) : NoValue out.2 := by
  unfold progress at h
  cases hs : s.pc with
  | ring p b => exact absurd hs (hpc p b)
  | start =>
    rw [hs] at h
    obtain rfl := some.inj h
    split_ifs <;> exact noValue_nil
  | idle | check | finish =>
    rw [hs] at h
    obtain rfl := some.inj h
    exact noValue_nil
  | poll p i =>
    rw [hs] at h
    dsimp only at h
    cases hi : (s.peers p).inProgress[i]? with
    | none =>
      rw [hi] at h
      obtain rfl := some.inj h
      exact noValue_nil
    | some d =>
      rw [hi] at h
      obtain rfl := some.inj h
      exact pollEntry_noValue i d
  | domains p i =>
    rw [hs] at h
    dsimp only at h
    cases hi : (s.peers p).active[i]? with
    | none =>
      rw [hi] at h
      obtain rfl := some.inj h
      exact noValue_nil
    | some index =>
      rw [hi] at h
      obtain rfl := some.inj h
      exact progressGetVisibilityDomain_noValue index
  | visible p i =>
    rw [hs] at h
    dsimp only at h
    cases hi : (s.peers p).inProgress[i]? with
    | none =>
      rw [hi] at h
      obtain rfl := some.inj h
      exact noValue_nil
    | some d =>
      rw [hi] at h
      obtain rfl := some.inj h
      exact visibleEntry_noValue i d
  | drain p =>
    rw [hs] at h
    dsimp only [drainEntry] at h
    split_ifs at h
    · obtain rfl := some.inj h
      exact noValue_nil
    · obtain rfl := some.inj h
      exact settle_noValue _ _

theorem postOne_noValue (ht : d.type ≠ .putValue) (sendComm : Bool) : NoValue (postOne c s p d ans sendComm).2 := by
  have hpost : NoValue (postOp c s p d ans).2.2.2 := by
    unfold postOp
    split
    · exact noValue_nil
    · intro q e call result hm
      rw [mem_singleton] at hm
      cases hm
      exact ht
  unfold postOne
  dsimp only
  split_ifs
  · exact hpost
  · exact noValue_append.2 ⟨hpost, noValue_singleton id⟩
  · exact noValue_append.2 ⟨hpost, noValue_singleton id⟩

theorem postBatch_noValue {descs : List Desc} (hput : ∀ d ∈ descs, d.type = .put) (sendComm : Bool) :
    NoValue (postBatch s p descs ans sendComm).2 := by
  have hhand : ∀ result : Result, NoValue (descs.map fun d =>
      (.handed p d.toSubmission (.iput d.srcOff d.dstOff d.size (some (d.srcMrIdx, d.dstMrIdx))) result : Note n)) := by
    intro result q e call result' hm
    obtain ⟨d, hd, he⟩ := mem_map.1 hm
    cases he
    have ht : d.type = .put := hput d hd
    rw [ht]
    nofun
  have htake : ∀ ds : List Desc, NoValue (ds.map fun d => (.consumed p d.toSubmission : Note n)) := by
    intro ds
    refine noValue_of_forall fun v hv => ?_
    obtain ⟨d, -, rfl⟩ := mem_map.1 hv
    exact id
  unfold postBatch
  by_cases hzero : (if 0 ≤ ans.posted ∧ ans.posted ≤ (descs.length : Int) then ans.posted.toNat else 0) = 0
  · rw [if_pos hzero]
    exact hhand _
  · rw [if_neg hzero]
    exact noValue_append.2 ⟨hhand _, htake _⟩

theorem PostsValue.ringEntry_eq (h : PostsValue c s p d) (hev : d.streamEvent = false) :
    ringEntry c s p true ans = postOne c s p d ans true := by
  have hstop : ¬ (circularBufEmpty (s.peers p) = true ∨ c.queueSize ≤ (s.peers p).inFlight) := by
    rintro (he | hf)
    · rw [h.nonempty] at he
      cases he
    · exact absurd h.room (UInt32.not_lt.2 hf)
  have hrelease : ¬ d.type = .release := by
    rw [h.type]
    nofun
  have hgate : eventGate c s p true d ans = submitHead c s p true d ans := by
    unfold eventGate
    rw [if_pos (by rw [hev]; rfl)]
  have hready : ¬ (if d.streamEvent = true then uint64Max else (s.peers p).readySeq) < d.opSeq := by
    rw [hev, if_neg (by simp)]
    exact UInt64.not_lt.2 h.ready
  unfold ringEntry
  rw [if_neg hstop, h.head, if_neg hrelease, hgate]
  unfold submitHead
  rw [if_neg hready, if_neg (by simp), if_neg]
  rw [h.type]
  rintro ⟨ht, -⟩
  cases ht

theorem ringEntry_value (ans : Answers) {b : Bool} (hpc : s.pc = .ring p b)
    (hev : circularBufEmpty (s.peers p) = false → ((s.peers p).slots (c.slot (s.peers p).ci)).type = .putValue →
      ((s.peers p).slots (c.slot (s.peers p).ci)).streamEvent = false) :
    NoValue (ringEntry c s p b ans).2 ∨
      ∃ d, PostsValue c s p d ∧ d.streamEvent = false ∧ ringEntry c s p b ans = postOne c s p d ans true := by
  by_cases hposts : PostsValue c s p ((s.peers p).slots (c.slot (s.peers p).ci))
  · have hhead := hev hposts.nonempty hposts.type
    obtain rfl : b = true := by
      have he := hpc.symm.trans hposts.pc
      cases he
      rfl
    exact .inr ⟨_, hposts, hhead, hposts.ringEntry_eq hhead⟩
  refine .inl ?_
  unfold ringEntry
  dsimp only
  by_cases hstop : circularBufEmpty (s.peers p) = true ∨ c.queueSize ≤ (s.peers p).inFlight
  · rw [if_pos hstop]
    exact noValue_nil
  rw [if_neg hstop]
  push Not at hstop
  have hempty : circularBufEmpty (s.peers p) = false := by simpa using hstop.1
  generalize hd : (s.peers p).slots (c.slot (s.peers p).ci) = d at hposts hev ⊢
  -- with the conditions of a post, only a staging buffer is missing
  have hsubmit : NoValue (submitHead c s p b d ans).2 := by
    unfold submitHead
    dsimp only
    generalize hr : (if d.streamEvent = true then uint64Max else (s.peers p).readySeq) = readySeq
    split_ifs with hwait hcomm hbatch
    · exact noValue_nil
    · exact noValue_nil
    · exact postBatch_noValue (fun e he => joins_put ((collectBatch_spec (c := c) (s.peers p) d readySeq).2.2 e he)) b
    · by_cases ht : d.type = .putValue
      swap
      · exact postOne_noValue ht b
      have hb : b = true := by simpa using hcomm
      rw [hev hempty ht, if_neg (by simp)] at hr
      have hstaging : c.hasStaging = false := by
        by_contra hs
        refine hposts ⟨hpc.trans (by rw [hb]), hempty, UInt32.not_le.1 hstop.2, hd, ht, ?_, by simpa using hs⟩
        rw [hr]
        exact UInt64.not_lt.1 hwait
      have hcall : d.netCall c.hasStaging = .error .internalError := by
        unfold Submission.netCall
        rw [ht, hstaging]
        rfl
      have hpost : postOp c s p d ans = (s, .internalError, false, []) := by
        unfold postOp
        rw [hcall]
      unfold postOne
      rw [hpost, if_neg (by simp), if_pos (by simp)]
      exact noValue_singleton id
  have hgate : NoValue (eventGate c s p b d ans).2 := by
    unfold eventGate
    dsimp only
    generalize (if d.ipcStatus = .success then ans.event else d.ipcStatus) = eventResult
    split_ifs
    · exact hsubmit
    · exact noValue_nil
    · exact noValue_nil
    · exact noValue_nil
    · exact settle_noValue d eventResult
    · exact settle_noValue d eventResult
    · exact settle_noValue d eventResult
    · exact hsubmit
  split_ifs
  · exact noValue_nil
  · exact noValue_singleton id
  · exact noValue_singleton id
  · exact hgate
  · exact hgate

theorem postOne_value (ans : Answers) (ht : d.type = .putValue) (hstaging : c.hasStaging = true) :
    ∃ peer l, (postOne c s p d ans true).1.peers = update s.peers p peer ∧ peer.staging = d.putValue ∧
      peer.inProgress = (s.peers p).inProgress ++ l ∧ ∀ e ∈ l, e.putValue = d.putValue := by
  have hcall : d.netCall c.hasStaging = .ok (.iputStaged d.dstOff d.dstMrIdx) := by
    unfold Submission.netCall
    rw [ht, hstaging]
    rfl
  obtain ⟨written, hwritten⟩ : ∃ written : Peer, written = { s.peers p with staging := d.putValue } := ⟨_, rfl⟩
  have hslot : written.staging = d.putValue := by rw [hwritten]
  have hprog : written.inProgress = (s.peers p).inProgress := by rw [hwritten]
  have hpost : postOp c s p d ans =
      (s.setPeer p written, ans.post, ans.request, [.handed p d.toSubmission (.iputStaged d.dstOff d.dstMrIdx) ans.post]) := by
    unfold postOp
    rw [hcall, ht, hwritten]
    rfl
  have hself : (s.setPeer p written).peers p = written := update_self ..
  -- a descriptor joins the requests in flight
  have htake : ∀ e : Desc, e.putValue = d.putValue → ∃ peer l, (take (s.setPeer p written) p [e]).peers =
      update s.peers p peer ∧ peer.staging = d.putValue ∧ peer.inProgress = (s.peers p).inProgress ++ l ∧
        ∀ e ∈ l, e.putValue = d.putValue := by
    intro e he
    have hpeers : (take (s.setPeer p written) p [e]).peers = _ := update_idem ..
    rw [hself] at hpeers
    refine ⟨_, [e], hpeers, hslot, congrArg (· ++ [e]) hprog, fun e' he' => ?_⟩
    rw [mem_singleton.1 he', he]
  unfold postOne
  rw [hpost]
  dsimp only
  split_ifs
  · exact ⟨written, [], rfl, hslot, by rw [hprog, append_nil], fun e he => absurd he not_mem_nil⟩
  · exact htake { d with request := false, completionResult := ans.post } rfl
  · have htrack : ∀ peer : Peer, trackGetVisibility c peer p
        { d with request := ans.request, completionResult := .success } =
        (.success, peer, { d with request := ans.request, completionResult := .success }) := by
      intro peer
      unfold trackGetVisibility
      rw [if_pos (.inl (by show d.type ≠ .get; rw [ht]; nofun))]
    unfold takePosted
    rw [htrack, if_neg (by simp)]
    have hsame : (s.setPeer p written).setPeer p ((s.setPeer p written).peers p) = s.setPeer p written := by
      unfold Proxy.setPeer
      rw [Core.setPeer_eq]
    rw [hsame]
    exact htake { d with request := ans.request, completionResult := .success } rfl

theorem PostsValue.staged (h : PostsValue c s p d) (hs : s.toCore.Staged)
    (hsame : ∀ e, (s.peers p).Unread e → e.putValue = d.putValue) : (postOne c s p d ans true).1.toCore.Staged := by
  obtain ⟨peer, l, hpeers, hslot, hprog, hl⟩ := postOne_value (s := s) (p := p) ans h.type h.staging
  intro q e he
  rw [hpeers] at he ⊢
  rcases eq_or_ne q p with rfl | hq
  · rw [update_self] at he ⊢
    obtain ⟨hin, ht, hreq⟩ := he
    rw [hprog] at hin
    rw [hslot]
    rcases mem_append.1 hin with hin | hin
    · exact (hsame e ⟨hin, ht, hreq⟩).symm
    · exact (hl e hin).symm
  · rw [update_of_ne hq] at he ⊢
    exact hs q e he

theorem Overwrites.delivers (ans : Answers) {e : Desc} (h : Overwrites c s p d e) :
    ∃ i, dmaRead (postOne c s p d ans true).1 p i =
      some ((postOne c s p d ans true).1, [.delivered p e.toSubmission d.putValue]) := by
  obtain ⟨hposts, ⟨hin, ht, hreq⟩, -⟩ := h
  obtain ⟨peer, l, hpeers, hslot, hprog, -⟩ := postOne_value (s := s) (p := p) ans hposts.type hposts.staging
  obtain ⟨i, hi⟩ := getElem?_of_mem hin
  have hself : (postOne c s p d ans true).1.peers p = peer := by rw [hpeers, update_self]
  refine ⟨i, ?_⟩
  unfold dmaRead
  rw [hself, hprog, getElem?_append_left (List.getElem?_eq_some_iff.1 hi).1, hi]
  dsimp only
  rw [if_pos ⟨ht, hreq⟩, hslot]

end Steps

/-! ## Runs -/

section Run
variable {r r' : Run n} {a : Action n}

theorem Reachable.head_event {ok : Run n → Action n → Prop} (h : Reachable c ok r) {p : Fin n}
    (hempty : circularBufEmpty (r.proxy.peers p) = false)
    (ht : ((r.proxy.peers p).slots (c.slot (r.proxy.peers p).ci)).type = .putValue) :
    ((r.proxy.peers p).slots (c.slot (r.proxy.peers p).ci)).streamEvent = false := by
  have hpub := (heads_single (c := c) hempty).published (h.books p) _ (mem_singleton_self _)
  by_contra he
  rcases ((h.origin p).genuine _ hpub).event (by simpa using he) with hget | hget
  · exact absurd (ht.symm.trans hget) nofun
  · exact absurd (ht.symm.trans hget) nofun

theorem Reachable.step_staged (h : Reachable c (NoneOverwritten c) r) (hok : NoneOverwritten c r a)
    (hstep : step c r a = some r') (hs : r.proxy.toCore.Staged) : r'.proxy.toCore.Staged := by
  obtain ⟨out, hact, rfl⟩ := map_eq_some_iff.1 hstep
  have hmoves := act_moves hact
  by_cases ha : ∃ ans, a = .progress ans
  swap
  · exact hmoves.staged hs (noValue_of_forall fun v hv hh => ha ((hmoves.party v hv).1 hh))
  obtain ⟨ans, rfl⟩ := ha
  have hprog : progress c r.proxy ans = some out := hact
  by_cases hpc : ∃ p b, r.proxy.pc = .ring p b
  swap
  · push Not at hpc
    exact hmoves.staged hs (progress_noValue hprog hpc)
  obtain ⟨p, b, hpc⟩ := hpc
  have hring : ringEntry c r.proxy p b ans = out := by
    unfold progress at hprog
    rw [hpc] at hprog
    exact some.inj hprog
  rcases ringEntry_value ans hpc h.head_event with hno | ⟨d, hposts, -, hpost⟩
  · exact hmoves.staged hs (by rw [← hring]; exact hno)
  · rw [← hring, hpost]
    refine hposts.staged hs fun e he => ?_
    by_contra hne
    exact hok p d e ⟨hposts, he, hne⟩

theorem step_delivers (hstep : step c r a = some r') (hs : r.proxy.toCore.Staged) (hd : DeliversOwn r.log) :
    DeliversOwn r'.log := by
  obtain ⟨out, hact, rfl⟩ := map_eq_some_iff.1 hstep
  intro p d v hm
  rcases mem_append.1 hm with hm | hm
  · exact hd p d v hm
  obtain ⟨q, i, rfl⟩ := ((act_moves hact).party _ hm).2 trivial
  have hread : dmaRead r.proxy q i = some out := hact
  unfold dmaRead at hread
  cases hi : (r.proxy.peers q).inProgress[i]? with
  | none =>
    rw [hi] at hread
    cases hread
  | some e =>
    rw [hi] at hread
    dsimp only at hread
    split_ifs at hread with hunread
    obtain rfl := some.inj hread
    obtain ⟨rfl, rfl, rfl⟩ : p = q ∧ d = e.toSubmission ∧ v = (r.proxy.peers q).staging := by simpa using hm
    exact hs p e ⟨mem_of_getElem? hi, hunread.1, hunread.2⟩

theorem Reachable.staged (h : Reachable c (NoneOverwritten c) r) : r.proxy.toCore.Staged ∧ DeliversOwn r.log := by
  obtain ⟨s, groups, hinit, hreach⟩ := h
  induction hreach with
  | init =>
    obtain ⟨board, -, rfl⟩ := init_eq hinit
    exact ⟨fun _ _ he => absurd he.1 not_mem_nil, fun _ _ _ hm => absurd hm not_mem_nil⟩
  | next a hreach hok hstep ih =>
    exact ⟨Reachable.step_staged ⟨s, groups, hinit, hreach⟩ hok hstep ih.1, step_delivers hstep ih.1 ih.2⟩

/-- **Put-values that are not overwritten deliver their own values.** After a post that overwrites another put-value, the
network may read for that one the value of the post. -/
theorem rma_putValue (c : Config n) :
    (∀ r, Reachable c (NoneOverwritten c) r → DeliversOwn r.log) ∧
    ∀ r, Reachable c (fun _ _ => True) r → ∀ p d e, Overwrites c r.proxy p d e → ∀ ans,
      ∃ r' i r'', step c r (.progress ans) = some r' ∧ step c r' (.dmaRead p i) = some r'' ∧
        .delivered p e.toSubmission d.putValue ∈ r''.log ∧ d.putValue ≠ e.putValue := by
  refine ⟨fun r h => h.staged.2, fun r h p d e hover ans => ?_⟩
  have hposts := hover.1
  have hev : d.streamEvent = false := by
    have hhead := h.head_event hposts.nonempty (by rw [hposts.head]; exact hposts.type)
    rwa [hposts.head] at hhead
  have hact : act c r.proxy (.progress ans) = some (postOne c r.proxy p d ans true) := by
    show progress c r.proxy ans = _
    unfold progress
    rw [hposts.pc]
    exact congrArg some (hposts.ringEntry_eq hev)
  obtain ⟨i, hread⟩ := hover.delivers ans
  generalize postOne c r.proxy p d ans true = out at hact hread
  have hpost : step c r (.progress ans) = some ⟨out.1, r.log ++ out.2⟩ := by
    unfold step
    rw [hact]
    rfl
  have hdma : step c ⟨out.1, r.log ++ out.2⟩ (.dmaRead p i) =
      some ⟨out.1, r.log ++ out.2 ++ [.delivered p e.toSubmission d.putValue]⟩ := by
    show Option.map _ (dmaRead out.1 p i) = _
    rw [hread]
    rfl
  exact ⟨_, i, _, hpost, hdma, mem_append_right _ (mem_singleton_self _), Ne.symm hover.2.2⟩

end Run

/-! ## A put-value that is read in time, and one that is not -/

/-- Whether all put-values that may be read have the value at the head of the ring. -/
def checkNoneOverwritten (r : Run 1) : Action 1 → Bool
  | .progress _ => (r.proxy.peers 0).inProgress.all fun e =>
      e.type != .putValue || !e.request ||
        e.putValue == ((r.proxy.peers 0).slots (fourSlots.slot (r.proxy.peers 0).ci)).putValue
  | _ => true

theorem checkNoneOverwritten_sound {r : Run 1} {a : Action 1} (h : checkNoneOverwritten r a = true) :
    NoneOverwritten fourSlots r a := by
  cases a with
  | progress ans =>
    rintro p d e ⟨hposts, ⟨hin, ht, hreq⟩, hne⟩
    obtain rfl := Subsingleton.elim p 0
    have hone := all_eq_true.1 h e hin
    rw [hposts.head] at hone
    simp [ht, hreq, hne] at hone
  | _ => trivial

def valueDesc (seq value dstOffset : UInt64) : Submission := (prepared seq (putValueDesc value dstOffset 0)).toSubmission

/-- A put-value is posted and read. -/
theorem rma_putValue_read : ∃ r : Run 1, Reachable fourSlots (NoneOverwritten fourSlots) r ∧
    .delivered 0 (valueDesc 1 7 0) 7 ∈ r.log ∧ DeliversOwn r.log := by
  have hsome : ((exec (fun r a => if checkNoneOverwritten r a then step fourSlots r a else none) ⟨fourStart, []⟩
      ([.admitCall 0 (.putValue 7 0 0) 0, .publish 0] ++ replicate 7 (.progress { fairAnswers with request := true }) ++
        [.dmaRead 0 0])).map fun r => decide (.delivered 0 (valueDesc 1 7 0) 7 ∈ r.log)) = some true := by decide +kernel
  obtain ⟨r, hr, he⟩ := map_eq_some_iff.1 hsome
  have hreach : Reachable fourSlots (NoneOverwritten fourSlots) r :=
    ⟨_, _, fourSlots_init, .of_checked (fun _ _ => checkNoneOverwritten_sound) hr⟩
  exact ⟨r, hreach, of_decide_eq_true he, (rma_putValue fourSlots).1 r hreach⟩

/-- Two put-values are posted before the first is read: the network reads for it the value of the second. -/
theorem rma_putValue_overwritten : ¬ ∀ r : Run 1, Reachable fourSlots (fun _ _ => True) r → DeliversOwn r.log := by
  intro h
  have hsome : ((exec (step fourSlots) ⟨fourStart, []⟩
      ([.admitCall 0 (.putValue 7 0 0) 0, .publish 0, .admitCall 0 (.putValue 9 8 0) 0, .publish 0] ++
        replicate 8 (.progress { fairAnswers with request := true }) ++ [.dmaRead 0 0])).map fun r =>
      decide (.delivered 0 (valueDesc 1 7 0) 9 ∈ r.log)) = some true := by decide +kernel
  obtain ⟨r, hreach, he⟩ := exists_run hsome
  exact absurd (h r hreach 0 _ 9 (of_decide_eq_true he)) (by decide)

end FlagCX.Rma
