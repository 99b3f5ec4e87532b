import FlagCX.Ib.Balance

/-!
# No completion of a send request is lost

The event counts of the send requests of a communicator over every run of posted receives, sends and tests. `Matching` is
about the FIFO record that waits for its sends.

* `Lanes.share_eq`  : the lanes counted by a send are the lanes posted, device by device.
* `postLanes_posts` : the posts of a batch, with the retries on a full send queue.
* `step_keeps`      : what one call keeps.
-/

namespace FlagCX.Ib
open Lib List Function

/-! ## Lanes -/

namespace Lanes

variable (lanes : Lanes)

theorem devIndex_add (a : Nat) {n : Nat} (h : lanes.ndevs ∣ n) : lanes.devIndex (a + n) = lanes.devIndex a := by
  obtain ⟨m, rfl⟩ := h
  apply Fin.ext
  exact Nat.add_mul_mod_self_left a lanes.ndevs m

theorem devIndex_mod (a : Nat) {n : Nat} (h : lanes.ndevs ∣ n) : lanes.devIndex (a % n) = lanes.devIndex a := by
  apply Fin.ext
  exact Nat.mod_mod_of_dvd a h

theorem ndevs_dvd_nqps : lanes.ndevs ∣ lanes.nqps := Dvd.intro_left lanes.qpsPerConn rfl

theorem ndevs_dvd_count : lanes.ndevs ∣ lanes.count := by
  unfold count
  split_ifs
  · exact lanes.ndevs_dvd_nqps
  · exact dvd_refl _

theorem ndevs_dvd_word : lanes.ndevs ∣ 2 ^ 64 := by
  have h1 := lanes.ndevs_pos
  have h2 := lanes.ndevs_le
  obtain h | h : lanes.ndevs = 1 ∨ lanes.ndevs = 2 := by omega
  · rw [h]
    exact one_dvd _
  · rw [h]
    exact Dvd.intro_left (2 ^ 63) rfl

theorem count_pos : 0 < lanes.count := by
  have h1 := lanes.ndevs_pos
  have h2 := lanes.qpsPerConn_pos
  unfold count nqps
  split_ifs
  · exact mul_pos h2 h1
  · exact h1

/-- The lanes on a device among `n` consecutive ones from `a` on. -/
def share (a n : Nat) : Dev → Nat := laneEvents ((List.range' a n).map lanes.devIndex)

theorem share_succ (a n : Nat) (d : Dev) :
    lanes.share a (n + 1) d = lanes.share (a + 1) n d + if lanes.devIndex a = d then 1 else 0 := by
  rw [share, share, laneEvents, laneEvents, range'_succ, map_cons, count_cons]
  simp [beq_iff_eq]

theorem share_succ_last (a n : Nat) (d : Dev) :
    lanes.share a (n + 1) d = lanes.share a n d + if lanes.devIndex (a + n) = d then 1 else 0 := by
  rw [share, share, laneEvents, laneEvents, range'_1_concat, map_append, count_append, map_singleton,
    count_singleton]
  simp [beq_iff_eq]

theorem share_eq (a : Nat) {n : Nat} (h : lanes.ndevs ∣ n) (d : Dev) : lanes.share a n d = lanes.share 0 n d := by
  induction a with
  | zero => rfl
  | succ a ih =>
    have h1 := lanes.share_succ a n d
    have h2 := lanes.share_succ_last a n d
    rw [lanes.devIndex_add a h] at h2
    omega

theorem previewEvents_eq (qpIndex : Nat) (policy : LanePolicy) :
    lanes.previewEvents qpIndex policy = lanes.share 0 lanes.count := by
  have key : ∀ a, laneEvents ((List.range lanes.count).map fun i => lanes.devIndex (a + i)) = lanes.share 0 lanes.count := by
    intro a
    funext d
    rw [← lanes.share_eq a lanes.ndevs_dvd_count d, share, range'_eq_map_range, map_map]
    rfl
  rw [previewEvents]
  cases policy with
  | unordered =>
    rw [← key qpIndex]
    congr 2
    funext i
    exact lanes.devIndex_mod _ lanes.ndevs_dvd_nqps
  | ordered orderingKey =>
    rw [← key orderingKey]
    congr 2
    funext i
    rw [preview, lanes.devIndex_mod _ lanes.ndevs_dvd_nqps, lanes.devIndex_mod _ lanes.ndevs_dvd_word]

theorem share_zero_pos : 0 < lanes.share 0 lanes.count 0 := by
  obtain ⟨n, hn⟩ := Nat.exists_eq_succ_of_ne_zero (ne_of_gt lanes.count_pos)
  rw [hn, lanes.share_succ 0 n 0]
  have h0 : lanes.devIndex 0 = 0 := by
    apply Fin.ext
    exact Nat.zero_mod _
  rw [if_pos h0]
  omega

end Lanes

section

variable {s s' s'' : SendState} {quiet quiet' : Prop}

/-! ## Posts -/

/-- Only completions that were polled and thrown away separate the two states. -/
structure Discards (quiet : Prop) (s s' : SendState) : Prop where
  balanced : Balanced s'
  same : ∃ wire dropped, s' = { s with wire := wire, dropped := dropped }
  dropped : quiet → s'.dropped = s.dropped

theorem Discards.refl (h : Balanced s) : Discards quiet s s := ⟨h, ⟨s.wire, s.dropped, rfl⟩, fun _ => rfl⟩

theorem Discards.trans (h : Discards quiet s s') (h' : Discards quiet' s' s'') : Discards (quiet ∧ quiet') s s'' := by
  obtain ⟨wire, dropped, rfl⟩ := h.same
  obtain ⟨wire', dropped', rfl⟩ := h'.same
  exact ⟨h'.balanced, ⟨wire', dropped', rfl⟩, fun hq => (h'.dropped hq.2).trans (h.dropped hq.1)⟩

theorem Discards.imp (h : Discards quiet s s') (hq : quiet' → quiet) : Discards quiet' s s' :=
  ⟨h.balanced, h.same, fun h' => h.dropped (hq h')⟩

theorem discard_discards (h : Balanced s) (dev : Dev) (cs : List Completion) :
    Discards (∀ c ∈ cs, c.isSignaled = false) s (s.discard dev cs) := by
  obtain ⟨wire, dropped, he, hb, hq⟩ := discard_spec h dev cs
  rw [he]
  exact ⟨hb, ⟨wire, dropped, rfl⟩, hq⟩

/-- No poll of a full send queue returns a signaled completion. -/
def LaneEnv.Quiet (env : LaneEnv) : Prop :=
  ∀ k, (∀ j ≤ k, env.post j = .noMemory) → ∀ d, ∀ c ∈ env.polled k d, c.isSignaled = false

theorem discardDevs_discards (polled : Dev → List Completion) (ds : List Dev) (h : Balanced s) :
    Discards (∀ d, ∀ c ∈ polled d, c.isSignaled = false) s (ds.foldl (fun s d => s.discard d (polled d)) s) := by
  induction ds generalizing s with
  | nil => exact .refl h
  | cons d ds ih =>
    have hd := discard_discards h d (polled d)
    exact (hd.trans (ih hd.balanced)).imp fun hq => ⟨hq d, hq⟩

theorem postChain_discards (lanes : Lanes) (env : LaneEnv) (retries k : Nat) (hk : ∀ j < k, env.post j = .noMemory)
    (h : Balanced s) : Discards env.Quiet s (postChain lanes env retries k s).2 := by
  induction retries generalizing k s with
  | zero => exact .refl h
  | succ n ih =>
    rw [postChain]
    split
    · rename_i hpost
      have hfull : ∀ j ≤ k, env.post j = .noMemory := by
        intro j hj
        rcases Nat.lt_or_eq_of_le hj with hlt | rfl
        · exact hk j hlt
        · exact hpost
      have hd := discardDevs_discards (env.polled k) lanes.devs h
      exact (hd.trans (ih (k + 1) (fun j hj => hfull j (Nat.le_of_lt_succ hj)) hd.balanced)).imp fun hq => ⟨hq k hfull, hq⟩
    · exact .refl h

def Lanes.cursor (qpIndex : Nat) (policy : LanePolicy) (stripe : Nat) : Nat :=
  match policy with
  | .ordered key => key + stripe
  | .unordered => qpIndex

theorem Lanes.devIndex_select (lanes : Lanes) (qpIndex : Nat) (policy : LanePolicy) (stripe : Nat) :
    lanes.devIndex (lanes.select qpIndex policy stripe) = lanes.devIndex (cursor qpIndex policy stripe) := by
  cases policy with
  | unordered => exact lanes.devIndex_mod _ lanes.ndevs_dvd_nqps
  | ordered key => rw [select, lanes.devIndex_mod _ lanes.ndevs_dvd_nqps, lanes.devIndex_mod _ lanes.ndevs_dvd_word, cursor]

theorem Lanes.cursor_commit (lanes : Lanes) (qpIndex : Nat) (policy : LanePolicy) (stripe : Nat) :
    cursor (lanes.commit qpIndex policy) policy (stripe + 1) % lanes.ndevs =
      (cursor qpIndex policy stripe + 1) % lanes.ndevs := by
  cases policy with
  | ordered key => rfl
  | unordered =>
    change (qpIndex % lanes.nqps + 1) % lanes.nqps % lanes.ndevs = (qpIndex + 1) % lanes.ndevs
    rw [Nat.mod_mod_of_dvd _ lanes.ndevs_dvd_nqps, Nat.add_mod, Nat.mod_mod_of_dvd _ lanes.ndevs_dvd_nqps, ← Nat.add_mod]

theorem Balanced.posted (lanes : Lanes) (h : Balanced s) (policy : LanePolicy) {requests : List Nat} {dev : Dev}
    (hnames : (⟨packWrId 0 requests, dev, requests⟩ : SignaledWr).Names s.reqs)
    (hle : ∀ q, requests.count q ≤ s.unposted q dev) : Balanced (s.posted lanes policy requests dev) := by
  have howed : (s.posted lanes policy requests dev).owed = s.owed := by
    funext q d
    change dropRequests s.unposted requests dev q d + tally _ (s.wire ++ [_]) _ + s.lost q d =
      s.unposted q d + s.onWire q d + s.lost q d
    rw [dropRequests_apply, tally_append, tally_cons, tally_nil]
    change s.unposted q d - (holdKeys requests dev).count (q, d) +
      (s.onWire q d + ((holdKeys requests dev).count (q, d) + 0)) + s.lost q d = _
    have hcount : (holdKeys requests dev).count (q, d) ≤ s.unposted q d := by
      rw [count_holdKeys]
      split_ifs with hd
      · rw [hd]
        exact hle q
      · exact Nat.zero_le _
    omega
  refine ⟨?_, h.idle, ?_⟩
  · rw [howed]
    exact h.tracked
  · intro wr hwr
    rcases mem_append.1 hwr with hwr | hwr
    · exact h.wire wr hwr
    · rw [mem_singleton.1 hwr]
      exact hnames

structure Posts (quiet : Prop) (s s' : SendState) : Prop where
  balanced : Balanced s'
  comm : s'.comm = s.comm
  reqs : s'.reqs = s.reqs
  fifo : s'.fifo = s.fifo
  fifoHead : s'.fifoHead = s.fifoHead
  fifoReqs : s'.fifoReqs = s.fifoReqs
  chunks : s'.chunksOnWire = s.chunksOnWire
  dropped : quiet → s'.dropped = s.dropped

theorem Posts.trans (h : Posts quiet s s') (h' : Posts quiet' s' s'') : Posts (quiet ∧ quiet') s s'' where
  balanced := h'.balanced
  comm := h'.comm.trans h.comm
  reqs := h'.reqs.trans h.reqs
  fifo := h'.fifo.trans h.fifo
  fifoHead := h'.fifoHead.trans h.fifoHead
  fifoReqs := h'.fifoReqs.trans h.fifoReqs
  chunks := h'.chunks.trans h.chunks
  dropped := fun hq => (h'.dropped hq.2).trans (h.dropped hq.1)

theorem Posts.imp (h : Posts quiet s s') (hq : quiet' → quiet) : Posts quiet' s s' :=
  ⟨h.balanced, h.comm, h.reqs, h.fifo, h.fifoHead, h.fifoReqs, h.chunks, fun h' => h.dropped (hq h')⟩

theorem Discards.posts (h : Discards quiet s s') : Posts quiet s s' := by
  obtain ⟨wire, dropped, rfl⟩ := h.same
  exact ⟨h.balanced, rfl, rfl, rfl, rfl, rfl, rfl, h.dropped⟩

theorem postLanes_posts (lanes : Lanes) (policy : LanePolicy) {requests : List Nat} (env : Nat → LaneEnv) (n i a : Nat)
    (h : Balanced s) (hnames : ∀ dev, (⟨packWrId 0 requests, dev, requests⟩ : SignaledWr).Names s.reqs)
    (hcursor : Lanes.cursor s.qpIndex policy i % lanes.ndevs = a % lanes.ndevs)
    (hleft : ∀ q ∈ requests, ∀ d, s.unposted q d = lanes.share a n d) :
    Posts (∀ i, (env i).Quiet) s (postLanes lanes policy requests env n i s).2 := by
  induction n generalizing i a s with
  | zero => exact (Discards.refl h).posts
  | succ n ih =>
    have hd := postChain_discards lanes (env i) maxRetries 0 (fun j hj => absurd hj (Nat.not_lt_zero j)) h
    rw [postLanes]
    split
    · rename_i s' hout
      rw [hout] at hd
      obtain ⟨wire, dropped, hs'⟩ := hd.same
      subst hs'
      have hdev : lanes.devIndex (lanes.select s.qpIndex policy i) = lanes.devIndex a := by
        rw [lanes.devIndex_select]
        exact Fin.ext hcursor
      have hcount : ∀ q, requests.count q ≤ s.unposted q (lanes.devIndex a) := by
        intro q
        by_cases hq : q ∈ requests
        · have hone := nodup_iff_count_le_one.1 (hnames 0).nodup q
          rw [hleft q hq, lanes.share_succ, if_pos rfl]
          exact hone.trans (Nat.le_add_left 1 _)
        · rw [count_eq_zero.2 hq]
          exact Nat.zero_le _
      have hb := hd.balanced.posted lanes policy (hnames (lanes.devIndex a)) hcount
      have hstep : Posts True { s with wire := wire, dropped := dropped }
          (SendState.posted lanes { s with wire := wire, dropped := dropped } policy requests (lanes.devIndex a)) :=
        ⟨hb, rfl, rfl, rfl, rfl, rfl, rfl, fun _ => rfl⟩
      rw [hdev]
      have hrest := ih (i + 1) (a + 1) hb (fun dev => hnames dev) (by
          change Lanes.cursor (lanes.commit s.qpIndex policy) policy (i + 1) % lanes.ndevs = _
          rw [lanes.cursor_commit, Nat.add_mod, hcursor, ← Nat.add_mod]) (by
          intro q hq d
          change dropRequests s.unposted requests (lanes.devIndex a) q d = _
          rw [dropRequests_apply, count_holdKeys, hleft q hq, lanes.share_succ]
          have hone : requests.count q = 1 := count_eq_one_of_mem (hnames 0).nodup hq
          rw [hone]
          simp only [eq_comm (a := d)]
          omega)
      exact (hd.posts.trans (hstep.trans hrest)).imp fun hq => ⟨hq i, trivial, hq⟩
    · rename_i hout
      rw [hout] at hd
      exact hd.posts.imp fun hq => hq i

/-! ## Sends -/

/-- The FIFO record that waits for its sends: the matched requests are different, and nothing of them is posted. -/
structure Matching (lanes : Lanes) (s : SendState) : Prop where
  records : ∀ rec ∈ s.fifo, rec.recvs ≠ [] ∧ rec.recvs.length ≤ maxRecvs
  empty : s.fifo[s.fifoHead]? = none → ∀ r, s.fifoReqs r = none
  slots : ∀ rec, s.fifo[s.fifoHead]? = some rec → s.missing rec = true → ∀ r q, s.fifoReqs r = some q →
    q < maxRequests ∧ (s.reqs q).nreqs = rec.recvs.length ∧ ∀ d, s.unposted q d = lanes.share 0 lanes.count d
  distinct : ∀ rec, s.fifo[s.fifoHead]? = some rec → s.missing rec = true →
    ∀ r r' q, s.fifoReqs r = some q → s.fifoReqs r' = some q → r = r'

theorem Frame.missing (h : Frame s s') (rec : PostedRecord) : s'.missing rec = s.missing rec := by
  rw [SendState.missing, h.fifoReqs, SendState.missing]

variable {lanes : Lanes}

theorem Matching.frame (h : Matching lanes s) (hf : Frame s s') : Matching lanes s' where
  records := by
    rw [hf.fifo]
    exact h.records
  empty := by
    rw [hf.fifo, hf.fifoHead, hf.fifoReqs]
    exact h.empty
  slots := by
    intro rec
    rw [hf.fifo, hf.fifoHead, hf.missing, hf.fifoReqs, hf.unposted]
    intro hrec hm r q hq
    obtain ⟨h1, h2, h3⟩ := h.slots rec hrec hm r q hq
    exact ⟨h1, (hf.nreqs q).trans h2, h3⟩
  distinct := by
    intro rec
    rw [hf.fifo, hf.fifoHead, hf.missing, hf.fifoReqs]
    exact h.distinct rec

variable {q : Nat}

theorem getRequest_free (h : s.getRequest = some q) : q < maxRequests ∧ (s.reqs q).inUse = false := by
  refine ⟨mem_range.1 (mem_of_find?_eq_some h), ?_⟩
  have := find?_some h
  simpa using this

theorem Balanced.free (h : Balanced s) (hq : (s.reqs q).inUse = false) (d : Dev) :
    s.unposted q d = 0 ∧ s.onWire q d = 0 ∧ s.lost q d = 0 ∧ s.comm.heldByEntries q d = 0 ∧ s.comm.heldByWindow q d = 0 := by
  have hz := h.idle q hq d
  rw [h.tracked.events, SendState.owed] at hz
  omega

theorem Balanced.inUse (h : Balanced s) {d : Dev} (hpos : 0 < s.unposted q d) : (s.reqs q).inUse = true := by
  by_contra hf
  have := (h.free (Bool.not_eq_true _ ▸ hf) d).1
  omega

theorem Balanced.addRequest (lanes : Lanes) (h : Balanced s) (rec : PostedRecord) (r : Nat)
    (hq : (s.reqs q).inUse = false) (source : Segment) (policy : LanePolicy) :
    Balanced (s.addRequest lanes rec r q source policy) := by
  refine ⟨⟨?_, h.tracked.window, h.tracked.windowNodup, h.tracked.entries⟩, ?_, ?_⟩
  · intro q' d
    have hev := h.tracked.events q' d
    change update s.comm.events q (lanes.previewEvents s.qpIndex policy) q' d =
      update s.unposted q (lanes.previewEvents s.qpIndex policy) q' d + s.onWire q' d + s.lost q' d +
        s.comm.heldByEntries q' d + s.comm.heldByWindow q' d
    by_cases he : q' = q
    · subst he
      obtain ⟨-, h2, h3, h4, h5⟩ := h.free hq d
      rw [update_self, update_self, h2, h3, h4, h5]
      rfl
    · rw [update_of_ne he, update_of_ne he, hev, SendState.owed]
  · intro q' hq'
    change (update s.reqs q _ q').inUse = false at hq'
    by_cases he : q' = q
    · rw [he, update_self] at hq'
      exact absurd hq' (by simp)
    · rw [update_of_ne he] at hq'
      intro d
      change update s.comm.events q _ q' d = 0
      rw [update_of_ne he]
      exact h.idle q' hq' d
  · intro wr hwr
    have hn := h.wire wr hwr
    refine ⟨hn.wrId, hn.nodup, hn.ne_nil, hn.length_le, hn.slots, fun q' hq' => ?_⟩
    have he : q' ≠ q := by
      rintro rfl
      have hpos : 0 < s.onWire q' wr.dev := tally_pos hwr (mem_map_of_mem hq')
      rw [(h.free hq wr.dev).2.1] at hpos
      exact lt_irrefl 0 hpos
    change (update s.reqs q _ q').nreqs = _
    rw [update_of_ne he]
    exact hn.nreqs q' hq'

variable {rec : PostedRecord}

theorem Matching.addRequest (h : Matching lanes s) (hb : Balanced s)
    (hrec : s.fifo[s.fifoHead]? = some rec) {r : Nat} (hr : r < rec.recvs.length) (hfree : s.fifoReqs r = none)
    (hq : s.getRequest = some q) (source : Segment) (policy : LanePolicy) :
    (∀ r' q', (s.addRequest lanes rec r q source policy).fifoReqs r' = some q' →
      q' < maxRequests ∧ ((s.addRequest lanes rec r q source policy).reqs q').nreqs = rec.recvs.length ∧
        ∀ d, (s.addRequest lanes rec r q source policy).unposted q' d = lanes.share 0 lanes.count d) ∧
    ∀ r₁ r₂ q', (s.addRequest lanes rec r q source policy).fifoReqs r₁ = some q' →
      (s.addRequest lanes rec r q source policy).fifoReqs r₂ = some q' → r₁ = r₂ := by
  obtain ⟨hslot, hidle⟩ := getRequest_free hq
  have hm : s.missing rec = true := by
    rw [SendState.missing, any_eq_true]
    exact ⟨r, mem_range.2 hr, by rw [hfree]; rfl⟩
  -- a matched request waits for its lanes, so it is not the free one
  have hother : ∀ r' q', s.fifoReqs r' = some q' → q' ≠ q := by
    rintro r' q' hr' rfl
    obtain ⟨-, -, h3⟩ := h.slots rec hrec hm r' q' hr'
    have hpos := lanes.share_zero_pos
    rw [← h3] at hpos
    rw [hb.inUse hpos] at hidle
    exact absurd hidle (by simp)
  refine ⟨fun r' q' hr' => ?_, fun r₁ r₂ q' h1 h2 => ?_⟩
  · change update s.fifoReqs r (some q) r' = some q' at hr'
    change q' < maxRequests ∧ (update s.reqs q _ q').nreqs = _ ∧
      ∀ d, update s.unposted q (lanes.previewEvents s.qpIndex policy) q' d = _
    by_cases he : r' = r
    · rw [he, update_self, Option.some.injEq] at hr'
      subst hr'
      rw [update_self, update_self, lanes.previewEvents_eq]
      exact ⟨hslot, rfl, fun _ => rfl⟩
    · rw [update_of_ne he] at hr'
      rw [update_of_ne (hother r' q' hr'), update_of_ne (hother r' q' hr')]
      exact h.slots rec hrec hm r' q' hr'
  · change update s.fifoReqs r (some q) r₁ = some q' at h1
    change update s.fifoReqs r (some q) r₂ = some q' at h2
    by_cases e1 : r₁ = r <;> by_cases e2 : r₂ = r
    · rw [e1, e2]
    · rw [e1, update_self, Option.some.injEq] at h1
      rw [update_of_ne e2] at h2
      exact absurd h1.symm (hother r₂ q' h2)
    · rw [e2, update_self, Option.some.injEq] at h2
      rw [update_of_ne e1] at h1
      exact absurd h2.symm (hother r₁ q' h1)
    · rw [update_of_ne e1] at h1
      rw [update_of_ne e2] at h2
      exact h.distinct rec hrec hm r₁ r₂ q' h1 h2

theorem Balanced.addBatch (h : Balanced s) {b : Batch} (hb : b.requests ≠ [] ∧ b.requests.Nodup)
    (huse : ∀ q ∈ b.requests, (s.reqs q).inUse = true) (nowUs : Nat) : Balanced { s with comm := (addBatch s.comm b nowUs).2 } := by
  refine ⟨h.tracked.addBatch hb nowUs, fun q hq d => ?_, h.wire⟩
  have hz := h.idle q hq d
  have hnot : q ∉ b.requests := by
    intro hmem
    rw [huse q hmem] at hq
    exact absurd hq (by simp)
  unfold Ib.addBatch
  split_ifs
  · exact hz
  · exact hz
  · change holdRequests s.comm.events b.requests b.ackDevIndex q d = 0
    rw [holdRequests_apply, hz, count_holdKeys, count_eq_zero.2 hnot, ite_self]

theorem addBatch_asyncResult (c : SendComm) (b : Batch) (nowUs : Nat) :
    (addBatch c b nowUs).2.asyncResult = c.asyncResult ∧
      (addBatch c b nowUs).2.outstandingRetrans = c.outstandingRetrans := by
  unfold addBatch
  split_ifs
  · exact ⟨rfl, rfl⟩
  · exact ⟨rfl, rfl⟩
  · exact ⟨rfl, rfl⟩

/-- What a send keeps outside the FIFO record at the head. -/
structure Sent (quiet : Prop) (s s' : SendState) : Prop where
  balanced : Balanced s'
  fifo : s'.fifo = s.fifo
  fifoHead : s'.fifoHead = s.fifoHead
  fifoReqs : s'.fifoReqs = s.fifoReqs
  careful : quiet → Careful s s'

theorem Posts.sent (h : Posts quiet s s') : Sent quiet s s' where
  balanced := h.balanced
  fifo := h.fifo
  fifoHead := h.fifoHead
  fifoReqs := h.fifoReqs
  careful := by
    refine fun hq => ⟨h.dropped hq, fun hs => ?_⟩
    rw [SendState.Synced, h.comm, h.chunks]
    exact hs

theorem matched_requests (hm : s.missing rec = false) : (List.range rec.recvs.length).map s.fifoReqs =
      ((List.range rec.recvs.length).filterMap s.fifoReqs).map some := by
  have hall : ∀ r ∈ List.range rec.recvs.length, (s.fifoReqs r).isSome = true := by
    intro r hr
    rw [SendState.missing, any_eq_false] at hm
    have := hm r hr
    cases hq : s.fifoReqs r with
    | none => exact absurd (by rw [hq]; rfl) this
    | some q => rfl
  generalize List.range rec.recvs.length = rs at hall
  induction rs with
  | nil => rfl
  | cons r rs ih =>
    obtain ⟨q, hq⟩ := Option.isSome_iff_exists.1 (hall r mem_cons_self)
    rw [map_cons, filterMap_cons, hq, map_cons, ih fun r' hr' => hall r' (mem_cons_of_mem r hr')]

theorem multiSend_sent (lanes : Lanes) (policy : LanePolicy) (env : Nat → LaneEnv) (nowUs : Nat)
    (h : Balanced s) (hrec : rec.recvs ≠ [] ∧ rec.recvs.length ≤ maxRecvs) (hm : s.missing rec = false)
    (hslots : ∀ r q, s.fifoReqs r = some q →
      q < maxRequests ∧ (s.reqs q).nreqs = rec.recvs.length ∧ ∀ d, s.unposted q d = lanes.share 0 lanes.count d)
    (hdistinct : ∀ r r' q, s.fifoReqs r = some q → s.fifoReqs r' = some q → r = r') :
    Sent (∀ i, (env i).Quiet) s (multiSend lanes s rec policy env nowUs).2 := by
  have hmap := matched_requests hm
  have hmem : ∀ q ∈ (List.range rec.recvs.length).filterMap s.fifoReqs, ∃ r, s.fifoReqs r = some q := by
    intro q hq
    obtain ⟨r, -, hr⟩ := mem_filterMap.1 hq
    exact ⟨r, hr⟩
  have hnodup : ((List.range rec.recvs.length).filterMap s.fifoReqs).Nodup := by
    apply List.Nodup.filterMap _ nodup_range
    intro r r' q hr hr'
    exact hdistinct r r' q hr hr'
  have hlen : ((List.range rec.recvs.length).filterMap s.fifoReqs).length = rec.recvs.length := by
    have := congrArg List.length hmap
    rw [length_map, length_map, length_range] at this
    exact this.symm
  unfold multiSend
  dsimp only
  generalize hreqs : (List.range rec.recvs.length).filterMap s.fifoReqs = requests at hmem hnodup hlen
  have hne : requests ≠ [] := by
    rintro rfl
    exact hrec.1 (length_eq_zero_iff.1 hlen.symm)
  have hnames : ∀ dev, (⟨packWrId 0 requests, dev, requests⟩ : SignaledWr).Names s.reqs := by
    refine fun dev => ⟨rfl, hnodup, hne, hlen.le.trans hrec.2, fun q hq => ?_, fun q hq => ?_⟩
    · obtain ⟨r, hr⟩ := hmem q hq
      exact (hslots r q hr).1
    · obtain ⟨r, hr⟩ := hmem q hq
      exact (hslots r q hr).2.1.trans hlen.symm
  have hleft : ∀ q ∈ requests, ∀ d, s.unposted q d =
      lanes.share (Lanes.cursor s.qpIndex policy 0) lanes.count d := by
    intro q hq d
    obtain ⟨r, hr⟩ := hmem q hq
    exact ((hslots r q hr).2.2 d).trans (lanes.share_eq _ lanes.ndevs_dvd_count d).symm
  have huse : ∀ q ∈ requests, (s.reqs q).inUse = true := by
    intro q hq
    obtain ⟨r, hr⟩ := hmem q hq
    have hpos := lanes.share_zero_pos
    rw [← (hslots r q hr).2.2] at hpos
    exact h.inUse hpos
  split_ifs with hbad
  · exact (Discards.refl h).posts.sent
  · -- the sequence number is taken before the posts
    have hseq : Balanced { s with comm := { s.comm with sendSeq := (s.comm.sendSeq + 1) &&& seqMask } } :=
      ⟨h.tracked.congr rfl rfl rfl rfl rfl, h.idle, h.wire⟩
    have hp := postLanes_posts lanes policy env lanes.count 0 _ hseq hnames rfl hleft
    have hstart : Sent True s { s with comm := { s.comm with sendSeq := (s.comm.sendSeq + 1) &&& seqMask } } :=
      ⟨hseq, rfl, rfl, rfl, fun _ => ⟨rfl, id⟩⟩
    have htrack : ∀ {s'}, Posts (∀ i, (env i).Quiet)
        { s with comm := { s.comm with sendSeq := (s.comm.sendSeq + 1) &&& seqMask } } s' →
        Sent (∀ i, (env i).Quiet) s { s' with comm := (addBatch s'.comm (s.batch rec requests) nowUs).2 } := by
      intro s' hs'
      have hsent := hs'.sent
      refine ⟨hs'.balanced.addBatch ⟨hne, hnodup⟩ (by rw [hs'.reqs]; exact huse) nowUs, hsent.fifo, hsent.fifoHead, hsent.fifoReqs,
        fun hq => ⟨(hsent.careful hq).dropped, fun hs => ?_⟩⟩
      have hkeep := (hsent.careful hq).synced hs
      obtain ⟨ha, ho⟩ := addBatch_asyncResult s'.comm (s.batch rec requests) nowUs
      intro hasync
      rw [ho]
      exact hkeep (ha.symm.trans hasync)
    split
    · rename_i s' hout
      rw [hout] at hp
      have ht := htrack hp
      split
      · rename_i comm hadd
        rw [hadd] at ht
        exact ⟨⟨ht.balanced.tracked, ht.balanced.idle, ht.balanced.wire⟩, ht.fifo, ht.fifoHead, ht.fifoReqs,
          fun hq => ⟨(ht.careful hq).dropped, (ht.careful hq).synced⟩⟩
      · rename_i r comm hne' hadd
        rw [hadd] at ht
        exact ht
    · rename_i r s' hne' hout
      rw [hout] at hp
      have hsent := hp.sent
      exact ⟨hsent.balanced, hsent.fifo, hsent.fifoHead, hsent.fifoReqs,
        fun hq => (hstart.careful trivial).trans (hsent.careful hq)⟩

/-- A send keeps the balance and the record at the head. -/
structure Stepped (lanes : Lanes) (quiet : Prop) (s s' : SendState) : Prop where
  balanced : Balanced s'
  matching : Matching lanes s'
  careful : quiet → Careful s s'

theorem Stepped.refl (hb : Balanced s) (hm : Matching lanes s) : Stepped lanes quiet s s := ⟨hb, hm, fun _ => Careful.refl s⟩

theorem Matching.of_complete
    (hrecords : ∀ rec ∈ s.fifo, rec.recvs ≠ [] ∧ rec.recvs.length ≤ maxRecvs) (hrec : s.fifo[s.fifoHead]? = some rec)
    (hm : s.missing rec = false) : Matching lanes s where
  records := hrecords
  empty := by
    intro hnone
    rw [hrec] at hnone
    exact nomatch hnone
  slots := by
    intro rec' hrec' hm'
    rw [hrec, Option.some.injEq] at hrec'
    rw [← hrec', hm] at hm'
    exact absurd hm' (by simp)
  distinct := by
    intro rec' hrec' hm'
    rw [hrec, Option.some.injEq] at hrec'
    rw [← hrec', hm] at hm'
    exact absurd hm' (by simp)

theorem isend_stepped (lanes : Lanes) (tag : Nat) (source : Segment) (env : IsendEnv) (hb : Balanced s)
    (hm : Matching lanes s) : Stepped lanes (∀ i, (env.lane i).Quiet) s (isend lanes s tag source env).2.2 := by
  unfold isend
  split
  · exact .refl hb hm
  · rename_i rec hrec
    split
    · exact .refl hb hm
    · rename_i recv r hfind
      split_ifs
      · exact .refl hb hm
      · split
        · exact .refl hb hm
        · rename_i q hq
          have hrecords := hm.records rec (mem_of_getElem? hrec)
          have hr : r < rec.recvs.length := by
            have hmem := mem_of_find?_eq_some hfind
            exact (mem_zipIdx' hmem).1
          have hfree : s.fifoReqs r = none := by
            have := find?_some hfind
            rw [Bool.and_eq_true] at this
            exact Option.isNone_iff_eq_none.1 this.1
          have hadd := hb.addRequest lanes rec r (getRequest_free hq).2 (clipSegment source recv.size) env.policy
          obtain ⟨hslots, hdistinct⟩ := hm.addRequest hb hrec hr hfree hq (clipSegment source recv.size) env.policy
          have hcareful : Careful s (s.addRequest lanes rec r q (clipSegment source recv.size) env.policy) := ⟨rfl, id⟩
          dsimp only
          generalize hs₁ : s.addRequest lanes rec r q (clipSegment source recv.size) env.policy = s₁ at *
          have hfifo : s₁.fifo = s.fifo := by rw [← hs₁]; rfl
          have hhead : s₁.fifoHead = s.fifoHead := by rw [← hs₁]; rfl
          have hrec₁ : s₁.fifo[s₁.fifoHead]? = some rec := by rw [hfifo, hhead]; exact hrec
          have hrecords₁ : ∀ rec ∈ s₁.fifo, rec.recvs ≠ [] ∧ rec.recvs.length ≤ maxRecvs := by
            rw [hfifo]
            exact hm.records
          split_ifs with hmiss
          · refine ⟨hadd, ⟨hrecords₁, ?_, ?_, ?_⟩, fun _ => hcareful⟩
            · intro hnone
              rw [hrec₁] at hnone
              exact nomatch hnone
            · intro rec' hrec' _
              rw [hrec₁, Option.some.injEq] at hrec'
              rw [← hrec']
              exact hslots
            · intro rec' _ _
              exact hdistinct
          · rw [Bool.not_eq_true] at hmiss
            have hsent := multiSend_sent lanes env.policy env.lane env.nowUs hadd hrecords hmiss hslots hdistinct
            split
            · rename_i s₂ hout
              rw [hout] at hsent
              refine ⟨⟨hsent.balanced.tracked, hsent.balanced.idle, hsent.balanced.wire⟩, ⟨?_, fun _ _ => rfl, ?_, ?_⟩,
                fun hq' => hcareful.trans ⟨(hsent.careful hq').dropped, (hsent.careful hq').synced⟩⟩
              · rw [hsent.fifo]
                exact hrecords₁
              · exact fun _ _ _ _ _ he => (nomatch he)
              · exact fun _ _ _ _ _ _ he => (nomatch he)
            · rename_i result s₂ hne hout
              rw [hout] at hsent
              refine ⟨hsent.balanced, ?_, fun hq' => hcareful.trans (hsent.careful hq')⟩
              have hrec₂ : s₂.fifo[s₂.fifoHead]? = some rec := by
                rw [hsent.fifo, hsent.fifoHead]
                exact hrec₁
              apply Matching.of_complete _ hrec₂
              · rw [SendState.missing, hsent.fifoReqs]
                exact hmiss
              · rw [hsent.fifo]
                exact hrecords₁

/-! ## Runs -/

/-- A step that leaves no completion behind: no poll of a full send queue returns a signaled completion, and no poll of a
test returns one behind a completion that ends the call. -/
def SendAct.Quiet : SendAct → Prop
  | .posted _ => True
  | .isend _ _ env => ∀ i, (env.lane i).Quiet
  | .test _ env => env.Quiet

theorem posted_stepped (hrec : rec.recvs ≠ [] ∧ rec.recvs.length ≤ maxRecvs)
    (hb : Balanced s) (hm : Matching lanes s) : Stepped lanes quiet s { s with fifo := s.fifo ++ [rec] } := by
  -- a matched request belongs to a record that was there before
  have hopen : ∀ r q, s.fifoReqs r = some q → ∃ rec₀, s.fifo[s.fifoHead]? = some rec₀ := by
    intro r q hq
    apply Option.ne_none_iff_exists'.1
    intro hnone
    rw [hm.empty hnone r] at hq
    exact nomatch hq
  have hkept : ∀ {rec₀}, s.fifo[s.fifoHead]? = some rec₀ → (s.fifo ++ [rec])[s.fifoHead]? = some rec₀ := by
    intro rec₀ hold
    rw [getElem?_append_left (List.getElem?_eq_some_iff.1 hold).1]
    exact hold
  refine ⟨⟨hb.tracked, hb.idle, hb.wire⟩, ⟨?_, ?_, ?_, ?_⟩, fun _ => ⟨rfl, id⟩⟩
  · intro rec' hrec'
    rcases mem_append.1 hrec' with h | h
    · exact hm.records rec' h
    · rw [mem_singleton.1 h]
      exact hrec
  · intro hnone
    apply hm.empty
    rw [List.getElem?_eq_none_iff] at hnone ⊢
    rw [length_append] at hnone
    exact (Nat.le_add_right _ _).trans hnone
  · intro rec' hrec' hmiss r q hq
    obtain ⟨rec₀, hold⟩ := hopen r q hq
    rw [hkept hold, Option.some.injEq] at hrec'
    exact hm.slots rec' (hrec' ▸ hold) hmiss r q hq
  · intro rec' hrec' hmiss r r' q hq
    obtain ⟨rec₀, hold⟩ := hopen r q hq
    rw [hkept hold, Option.some.injEq] at hrec'
    exact hm.distinct rec' (hrec' ▸ hold) hmiss r r' q hq

theorem step_stepped {a : SendAct} (hb : Balanced s) (hm : Matching lanes s)
    (hstep : s.step lanes a = some s') : Stepped lanes a.Quiet s s' := by
  cases a with
  | posted rec =>
    rw [SendState.step] at hstep
    split_ifs at hstep with hbad
    cases hstep
    rw [not_or] at hbad
    exact posted_stepped ⟨hbad.1, Nat.le_of_not_lt hbad.2⟩ hb hm
  | isend tag source env =>
    cases hstep
    exact isend_stepped lanes tag source env hb hm
  | test q env =>
    cases hstep
    have ht := test_tested lanes q env hb
    exact ⟨ht.keeps.balanced, hm.frame ht.keeps.frame, ht.keeps.careful⟩

theorem start_balanced (minRtoUs maxRetry : Nat) : Balanced (SendState.start minRtoUs maxRetry) where
  tracked := ⟨fun _ _ => rfl, ⟨fun _ => rfl, fun _ => rfl⟩, nodup_nil, fun _ he => nomatch he⟩
  idle := fun _ _ _ => rfl
  wire := fun _ hwr => nomatch hwr

theorem start_matching (lanes : Lanes) (minRtoUs maxRetry : Nat) : Matching lanes (SendState.start minRtoUs maxRetry) where
  records := fun _ hrec => nomatch hrec
  empty := fun _ _ => rfl
  slots := fun _ hrec => nomatch hrec
  distinct := fun _ hrec => nomatch hrec

theorem run_balanced {ok : SendState → SendAct → Prop} {minRtoUs maxRetry : Nat}
    (hrun : Reach (SendState.step lanes) ok (.start minRtoUs maxRetry) s) : Balanced s ∧ Matching lanes s := by
  apply hrun.invariant ⟨start_balanced minRtoUs maxRetry, start_matching lanes minRtoUs maxRetry⟩
  intro s s' a h _ hstep
  have hk := step_stepped h.1 h.2 hstep
  exact ⟨hk.balanced, hk.matching⟩

theorem Balanced.released (h : Balanced s) (hz : ∀ d, s.comm.events q d = 0) :
    (∀ e ∈ s.comm.buffer, q ∉ e.batch.requests) ∧ q ∉ s.comm.retransWindowRequests := by
  constructor
  · intro e he hq
    have hpos := h.tracked.named_pos (mem_map_of_mem he) hq
    rw [hz] at hpos
    exact lt_irrefl 0 hpos
  · intro hq
    have hev := h.tracked.events_eq q s.comm.retransWindowDevIndex
    rw [hz, SendComm.windowHolding, if_pos ⟨hq, rfl⟩] at hev
    omega

/-- Over every run, the events of a send request are the completions it has not been told of, plus one for every
retransmission entry and one for the window that references it. -/
theorem sendRequests_held (lanes : Lanes) {minRtoUs maxRetry : Nat} {s : SendState}
    (hrun : Reach (SendState.step lanes) (fun _ _ => True) (.start minRtoUs maxRetry) s) :
    (∀ q d, s.comm.events q d = s.owed q d + s.comm.entriesHolding q d + s.comm.windowHolding q d) ∧
    (∀ c, RetransCall s.comm c → ∀ q d, c.events q d + s.comm.entriesHolding q d + s.comm.windowHolding q d =
      s.comm.events q d + c.entriesHolding q d + c.windowHolding q d) ∧
    ∀ q env,
      ((test lanes s q env).1.done = true → (test lanes s q env).2.comm.asyncResult = .success →
        (∀ e ∈ (test lanes s q env).2.comm.buffer, q ∉ e.batch.requests) ∧
          q ∉ (test lanes s q env).2.comm.retransWindowRequests) ∧
      (s.comm.asyncResult ≠ .success → s.comm.asyncResult ≠ .inProgress →
        test lanes s q env = (⟨true, s.comm.asyncResult⟩, s)) := by
  have hb := (run_balanced hrun).1
  refine ⟨hb.tracked.events_eq, ?_, fun q env => ⟨fun hdone hasync => ?_, fun h1 h2 => ?_⟩⟩
  · intro c hcall q d
    rw [(hb.tracked.call hcall).events_eq, hb.tracked.events_eq]
    omega
  · have ht := test_tested lanes q env hb
    rcases ht.done hdone with herr | hz
    · exact absurd hasync herr
    · exact ht.keeps.balanced.released hz
  · rw [test, if_pos ⟨h1, h2⟩]

/-! ### Runs of a communicator with one lane -/

/-- One device with one queue pair. -/
def oneLane : Lanes := ⟨1, 1, false, by decide, by decide, by decide⟩

def oneRecv : PostedRecord := ⟨0, 1, [⟨7, 8, 64, 5⟩]⟩

/-- A send whose lane takes the chain after `full` posts to a full queue, the first of which polls `polled`. -/
def sendEnv (full : Nat) (polled : List Completion) : IsendEnv :=
  ⟨.unordered, fun _ => ⟨fun k => if k < full then .noMemory else .success, fun k _ => if k = 0 then polled else []⟩, 0⟩

def testEnv (retrans : List RetransWc) (polled : List Completion) : TestEnv :=
  ⟨fun d => if d = 0 then retrans else [], 0, 0, fun _ => .success, [fun d => if d = 0 then polled else []]⟩

def oneSend : List SendAct := [.posted oneRecv, .isend 7 ⟨8, fun _ => 1⟩ (sendEnv 0 [])]

/-- A data write fails: the test reports the request done while its entry still references it. -/
theorem failedWrite_reports_held :
    ∃ s env, Reach (SendState.step oneLane) (fun _ _ => True) (.start 5000 10) s ∧
      (test oneLane s 0 env).1.done = true ∧ ∃ e ∈ (test oneLane s 0 env).2.comm.buffer, 0 ∈ e.batch.requests := by
  obtain ⟨s, hs⟩ : ∃ s, exec (SendState.step oneLane) (.start 5000 10) oneSend = some s :=
    Option.isSome_iff_exists.1 (by decide)
  have hout : (exec (SendState.step oneLane) (.start 5000 10) oneSend).map (fun s =>
      let out := test oneLane s 0 (testEnv [] [.unsignaled 0 true])
      (out.1.done, out.2.comm.buffer.map (·.batch.requests))) = some (true, [[0]]) := by decide
  rw [hs, Option.map_some, Option.some.injEq, Prod.mk.injEq] at hout
  refine ⟨s, testEnv [] [.unsignaled 0 true], .of_exec (fun _ _ _ => trivial) hs, hout.1, ?_⟩
  have hmem : [0] ∈ (test oneLane s 0 (testEnv [] [.unsignaled 0 true])).2.comm.buffer.map (·.batch.requests) := by
    rw [hout.2]
    exact mem_cons_self
  obtain ⟨e, he, hreq⟩ := mem_map.1 hmem
  exact ⟨e, he, by rw [hreq]; exact mem_cons_self⟩

theorem sendRequests_held_one_send :
    ∃ s, exec (SendState.step oneLane) (.start 5000 10) oneSend = some s ∧ s.comm.entriesHolding 0 0 = 1 ∧
      s.comm.events 0 0 = s.owed 0 0 + 1 + s.comm.windowHolding 0 0 := by
  obtain ⟨s, hs⟩ : ∃ s, exec (SendState.step oneLane) (.start 5000 10) oneSend = some s :=
    Option.isSome_iff_exists.1 (by decide)
  have hout : (exec (SendState.step oneLane) (.start 5000 10) oneSend).map (·.comm.entriesHolding 0 0) = some 1 := by
    decide
  rw [hs, Option.map_some, Option.some.injEq] at hout
  obtain ⟨hev, -⟩ := sendRequests_held oneLane (Reach.of_exec (fun _ _ _ => trivial) hs)
  refine ⟨s, hs, hout, ?_⟩
  rw [hev, hout]

/-! ### Completions -/

/-- The signaled work requests of a request on a device whose completion has not been polled. -/
def SendState.unpolled (s : SendState) (q : Nat) (d : Dev) : Nat :=
  s.wire.countP fun wr => decide (q ∈ wr.requests ∧ wr.dev = d)

theorem Balanced.onWire_eq (h : Balanced s) (q : Nat) (d : Dev) : s.onWire q d = s.unpolled q d := by
  have hnodup : ∀ wr ∈ s.wire, wr.keys.Nodup := fun wr hwr => nodup_holdKeys (h.wire wr hwr).nodup _
  rw [SendState.onWire, tally_eq_countP hnodup, SendState.unpolled]
  apply countP_congr
  intro wr _
  rw [elem_iff, decide_eq_true_iff]
  exact mem_holdKeys

theorem test_done_of_idle (lanes : Lanes) (env : TestEnv) (h : Balanced s) (hz : ∀ d, s.comm.events q d = 0)
    (hpre : (testPreCheck lanes s q env).1 = .success) : (test lanes s q env).1.done = true := by
  have hk := testPreCheck_keeps lanes q env h
  unfold test
  split_ifs with ha
  · rfl
  · cases hout : testPreCheck lanes s q env with
    | mk r s' =>
      rw [hout] at hk hpre
      have hr : r = .success := hpre
      subst hr
      have hz' := (events_zero_iff s' q).2 (hk.frame.idle q hz)
      cases hrounds : env.rounds with
      | nil =>
        dsimp only
        rw [testLoop, if_pos hz']
      | cons round rounds =>
        dsimp only
        rw [testLoop, if_pos hz']

theorem quietRun_careful {minRtoUs maxRetry : Nat}
    (hrun : Reach (SendState.step lanes) (fun _ a => a.Quiet) (.start minRtoUs maxRetry) s) :
    (Balanced s ∧ Matching lanes s) ∧ s.dropped = [] ∧ s.Synced := by
  apply hrun.invariant ⟨⟨start_balanced minRtoUs maxRetry, start_matching lanes minRtoUs maxRetry⟩, rfl, fun _ => rfl⟩
  intro s s' a h hq hstep
  have hk := step_stepped h.1.1 h.1.2 hstep
  have hc := hk.careful hq
  exact ⟨⟨hk.balanced, hk.matching⟩, hc.dropped.trans h.2.1, hc.synced h.2.2⟩

theorem Balanced.events_of_kept (h : Balanced s) (hd : s.dropped = []) (q : Nat) (d : Dev) :
    s.comm.events q d =
      s.unposted q d + s.unpolled q d + s.comm.entriesHolding q d + s.comm.windowHolding q d := by
  have hlost : s.lost q d = 0 := by
    rw [SendState.lost, hd]
    rfl
  rw [h.tracked.events_eq, SendState.owed, h.onWire_eq, hlost, add_zero]

/-- In every run whose polls leave no completion behind, no completion of a send request is swallowed, and a request with
nothing left to wait for tests as done. -/
theorem sendRequests_complete (lanes : Lanes) {minRtoUs maxRetry : Nat} {s : SendState}
    (hrun : Reach (SendState.step lanes) (fun _ a => a.Quiet) (.start minRtoUs maxRetry) s) :
    (∀ q d, s.comm.events q d =
      s.unposted q d + s.unpolled q d + s.comm.entriesHolding q d + s.comm.windowHolding q d) ∧
    (s.comm.asyncResult = .success → s.comm.retransWindowRequests ≠ [] → 0 < s.chunksOnWire) ∧
    (∀ q, (∀ d, s.unposted q d = 0 ∧ s.unpolled q d = 0 ∧ s.comm.entriesHolding q d = 0 ∧ s.comm.windowHolding q d = 0) →
      ∀ env, (testPreCheck lanes s q env).1 = .success → (test lanes s q env).1.done = true) ∧
    ∀ q env, env.Quiet → (test lanes s q env).1 = ⟨false, .success⟩ → ∃ d, 0 < (test lanes s q env).2.unposted q d +
      (test lanes s q env).2.unpolled q d + (test lanes s q env).2.comm.entriesHolding q d +
      (test lanes s q env).2.comm.windowHolding q d := by
  obtain ⟨⟨hb, -⟩, hd, hs⟩ := quietRun_careful hrun
  refine ⟨hb.events_of_kept hd, fun ha hw => ?_, fun q hz env hpre => ?_, fun q env hq hout => ?_⟩
  · have hne : s.comm.outstandingRetrans ≠ 0 := fun h0 => hw (hb.tracked.window.1 h0)
    rw [hs ha] at hne
    omega
  · apply test_done_of_idle lanes env hb _ hpre
    intro d
    obtain ⟨h1, h2, h3, h4⟩ := hz d
    rw [hb.events_of_kept hd, h1, h2, h3, h4]
  · have ht := test_tested lanes q env hb
    obtain ⟨d, hne⟩ := ht.pending hout
    have hd' := (ht.keeps.careful hq).dropped.trans hd
    rw [ht.keeps.balanced.events_of_kept hd'] at hne
    exact ⟨d, pos_of_ne_zero hne⟩

/-- Two sends; the second finds its queue full and throws the completion of the first away. Then both batches are
acknowledged and the second completes. -/
def swallowed : List SendAct :=
  oneSend ++ [.posted oneRecv, .isend 7 ⟨8, fun _ => 2⟩ (sendEnv 1 [.signaled 0 false]),
    .test 1 (testEnv [.ack 0 ⟨1, 0, 0, 0, 2⟩ 0 .success] [.signaled 0 false])]

/-- Nothing of the first send is outstanding any more, and it keeps an event and does not test as done. -/
theorem fullQueue_swallows_completion :
    ∃ s, Reach (SendState.step oneLane) (fun _ _ => True) (.start 5000 10) s ∧ s.wire = [] ∧ s.comm.buffer = [] ∧
      s.comm.events 0 0 ≠ s.unposted 0 0 + s.unpolled 0 0 + s.comm.entriesHolding 0 0 + s.comm.windowHolding 0 0 ∧
      (∀ d, s.unposted 0 d = 0 ∧ s.unpolled 0 d = 0 ∧ s.comm.entriesHolding 0 d = 0 ∧ s.comm.windowHolding 0 d = 0) ∧
      (testPreCheck oneLane s 0 (testEnv [] [])).1 = .success ∧ (test oneLane s 0 (testEnv [] [])).1 = ⟨false, .success⟩ := by
  obtain ⟨s, hs⟩ : ∃ s, exec (SendState.step oneLane) (.start 5000 10) swallowed = some s :=
    Option.isSome_iff_exists.1 (by decide)
  have hout : (exec (SendState.step oneLane) (.start 5000 10) swallowed).map (fun s =>
      (decide (s.wire.length = 0 ∧ s.comm.buffer.length = 0 ∧ s.comm.events 0 0 = 1 ∧
        (∀ d, s.unposted 0 d = 0 ∧ s.unpolled 0 d = 0 ∧ s.comm.entriesHolding 0 d = 0 ∧ s.comm.windowHolding 0 d = 0) ∧
        (testPreCheck oneLane s 0 (testEnv [] [])).1 = .success ∧
        (test oneLane s 0 (testEnv [] [])).1 = ⟨false, .success⟩))) = some true := by decide
  rw [hs, Option.map_some, Option.some.injEq, decide_eq_true_iff] at hout
  obtain ⟨hwire, hbuf, hev, hnone, hpre, htest⟩ := hout
  refine ⟨s, .of_exec (fun _ _ _ => trivial) hs, length_eq_zero_iff.1 hwire, length_eq_zero_iff.1 hbuf, ?_, hnone,
    hpre, htest⟩
  obtain ⟨h1, h2, h3, h4⟩ := hnone 0
  rw [hev, h1, h2, h3, h4]
  decide

theorem sendRequests_complete_one_send :
    ∃ s, exec (SendState.step oneLane) (.start 5000 10) oneSend = some s ∧ s.unpolled 0 0 = 1 ∧
      s.comm.events 0 0 = s.unposted 0 0 + 1 + s.comm.entriesHolding 0 0 + s.comm.windowHolding 0 0 := by
  obtain ⟨s, hs⟩ : ∃ s, exec (SendState.step oneLane) (.start 5000 10) oneSend = some s :=
    Option.isSome_iff_exists.1 (by decide)
  have hquiet : ∀ (_ : SendState), ∀ a ∈ oneSend, a.Quiet := by
    intro _ a ha
    simp only [oneSend, mem_cons, not_mem_nil, or_false] at ha
    rcases ha with rfl | rfl
    · exact trivial
    · exact fun _ k hfull => nomatch hfull k (Nat.le_refl k)
  have hout : (exec (SendState.step oneLane) (.start 5000 10) oneSend).map (·.unpolled 0 0) = some 1 := by decide
  rw [hs, Option.map_some, Option.some.injEq] at hout
  obtain ⟨hev, -⟩ := sendRequests_complete oneLane (Reach.of_exec hquiet hs)
  refine ⟨s, hs, hout, ?_⟩
  rw [hev, hout]

end

end FlagCX.Ib
