import FlagCX.Ib.Striping
import FlagCX.Ib.AckSafety

/-!
# When a striped receive is complete

A notification stands for the writes of its lane, so a receive whose notifications have all been counted has its bytes
when no write they announce was lost (`receive_complete`); a lost write is not noticed (`lostWrite_reported_done`).
`Counting` ties the data events a receive still counts to the notifications that have not arrived.
-/

namespace FlagCX.Ib
open List Function Option

open Lib

/-! ## Stripes -/

theorem toInt_eq {x : Int} (h : 0 ≤ x) (h' : x < 2 ^ 31) : toInt x = x := by
  unfold toInt
  rw [Int.bmod_def]
  omega

theorem divUp_eq {x y : Nat} (hy : 0 < y) (h : x + y ≤ 2 ^ 31) : divUp x y = ((x + y - 1) / y : Nat) := by
  unfold divUp
  have hsub : (x : Int) + y - 1 = ((x + y - 1 : Nat) : Int) := by omega
  rw [hsub, toInt_eq (by omega) (by omega), Int.ofNat_tdiv]

variable {nqps : Nat}

theorem stripeSize_eq {size : Nat} (hn : 0 < nqps) (h : FitsInt size nqps) :
    stripeSize size nqps = (((size + nqps - 1) / nqps + 127) / 128 * 128 : Nat) := by
  obtain ⟨h1, h2⟩ := h
  unfold stripeSize
  have h128 : divUp (((size + nqps - 1) / nqps : Nat) : Int) 128 = (((size + nqps - 1) / nqps + 128 - 1) / 128 : Nat) :=
    divUp_eq (by decide) h2
  rw [divUp_eq hn h1, h128]
  have hmul : ((((size + nqps - 1) / nqps + 128 - 1) / 128 : Nat) : Int) * 128 =
      (((size + nqps - 1) / nqps + 127) / 128 * 128 : Nat) := by
    omega
  apply toInt_eq <;> omega

/-- **The lanes cover the message.** -/
theorem stripe_covers {size : Nat} (hn : 0 < nqps) (h : FitsInt size nqps) {x : Nat} (hx : x < size) :
    ∃ i < nqps, (stripe size nqps i).offset ≤ x ∧ x < (stripe size nqps i).offset + (stripe size nqps i).length := by
  have hstripe := stripeSize_eq hn h
  obtain ⟨h1, h2⟩ := h
  obtain ⟨q, hq⟩ : ∃ q, (size + nqps - 1) / nqps = q := ⟨_, rfl⟩
  obtain ⟨c, hc⟩ : ∃ c, (q + 127) / 128 * 128 = c := ⟨_, rfl⟩
  rw [hq, hc] at hstripe
  have hqc : q ≤ c := by omega
  -- the stripes of all lanes reach the end
  have hall : size ≤ nqps * c := by
    have hmod := Nat.div_add_mod (size + nqps - 1) nqps
    have hlt := Nat.mod_lt (size + nqps - 1) hn
    rw [hq] at hmod
    have hle : nqps * q ≤ nqps * c := Nat.mul_le_mul_left nqps hqc
    omega
  have hcpos : 0 < c := by
    rcases eq_zero_or_pos c with h0 | h0
    · rw [h0] at hall
      omega
    · exact h0
  have hi : x / c < nqps := Nat.div_lt_of_lt_mul (by rw [mul_comm]; omega)
  refine ⟨x / c, hi, ?_⟩
  obtain ⟨o, ho⟩ : ∃ o, x / c * c = o := ⟨_, rfl⟩
  have hlo : o ≤ x := ho ▸ Nat.div_mul_le_self x c
  have hhi : x < o + c := ho ▸ Nat.lt_div_mul_add hcpos
  have hmul : ((x / c : Nat) : Int) * (c : Int) = (o : Int) := by rw [← ho, Int.natCast_mul]
  have hlength : min (toInt (size - toInt o)) c = min (size - o : Int) c := by
    rw [toInt_eq (x := (o : Int)) (by omega) (by omega), toInt_eq (by omega) (by omega)]
  unfold stripe
  dsimp only
  rw [hstripe, hmul, hlength]
  omega

/-! ## Lanes -/

namespace Lanes

variable (lanes : Lanes)

theorem selectFrom_length (policy : LanePolicy) (n i qpIndex : Nat) : (lanes.selectFrom policy n i qpIndex).1.length = n := by
  induction n generalizing i qpIndex with
  | zero => rfl
  | succ n ih => rw [selectFrom, length_cons, ih]

theorem selectFrom_devs (policy : LanePolicy) (n i qpIndex a : Nat)
    (h : cursor qpIndex policy i % lanes.ndevs = a % lanes.ndevs) :
    (lanes.selectFrom policy n i qpIndex).1.map lanes.devIndex = (range' a n).map lanes.devIndex := by
  induction n generalizing i qpIndex a with
  | zero => rfl
  | succ n ih =>
    have hdev : lanes.devIndex (lanes.select qpIndex policy i) = lanes.devIndex a := by
      rw [lanes.devIndex_select]
      exact Fin.ext h
    have hrest := ih (i + 1) (lanes.commit qpIndex policy) (a + 1) (by
      rw [lanes.cursor_commit, Nat.add_mod, h, ← Nat.add_mod])
    rw [selectFrom, map_cons, range'_succ, map_cons, hdev, hrest]

theorem selectFrom_congr {lanes lanes' : Lanes} (h : lanes.nqps = lanes'.nqps) (policy : LanePolicy) (n i qpIndex : Nat) :
    lanes.selectFrom policy n i qpIndex = lanes'.selectFrom policy n i qpIndex := by
  have hselect : lanes.select = lanes'.select := by
    funext qpIndex policy stripe
    cases policy <;> simp only [select, h]
  have hcommit : lanes.commit = lanes'.commit := by
    funext qpIndex policy
    cases policy <;> simp only [commit, h]
  induction n generalizing i qpIndex with
  | zero => rfl
  | succ n ih => rw [selectFrom, selectFrom, hselect, hcommit, ih]

theorem share_mono (a : Nat) {n n' : Nat} (h : n ≤ n') (d : Dev) : lanes.share a n d ≤ lanes.share a n' d := by
  obtain ⟨k, rfl⟩ := Nat.exists_eq_add_of_le h
  induction k with
  | zero => exact le_rfl
  | succ k ih =>
    rw [← add_assoc, share_succ_last]
    exact (ih (Nat.le_add_right n k)).trans (Nat.le_add_right _ _)

theorem laneEvents_selectAll (policy : LanePolicy) (qpIndex : Nat) (d : Dev) :
    laneEvents ((lanes.selectAll policy qpIndex).1.map lanes.devIndex) d = lanes.share 0 lanes.count d := by
  rw [selectAll, lanes.selectFrom_devs policy _ 0 qpIndex _ rfl]
  exact lanes.share_eq _ lanes.ndevs_dvd_count d

end Lanes

theorem Link.laneEvents_le (link : Link) (hlanes : link.snd.count ≤ link.rcv.count) (policy : LanePolicy) (qpIndex : Nat)
    (d : Dev) : laneEvents ((link.snd.selectAll policy qpIndex).1.map link.rcv.devIndex) d ≤
      link.rcv.share 0 link.rcv.count d := by
  rw [Lanes.selectAll, Lanes.selectFrom_congr link.nqps, link.rcv.selectFrom_devs policy _ 0 qpIndex _ rfl,
    ← link.rcv.share_eq (Lanes.cursor qpIndex policy 0) link.rcv.ndevs_dvd_count d]
  exact link.rcv.share_mono _ hlanes d

/-! ## Receives -/

def Request.Full (r : Request) : Prop := ∀ i < r.nreqs, r.retransSegmentMask.testBit i = true

theorem testBit_completeMask {n i : Nat} (hn : n ≤ 8) (hi : i < n) : (completeMask n).testBit i = true := by
  have hall : ∀ n < 9, ∀ i < n, (completeMask n).testBit i = true := by decide
  exact hall n (by omega) i hi

def Request.Split (r : Request) : Prop := ∀ d, r.events d = r.dataEvents d + r.cqes d

/-- The same receive, which waits for the same notifications unless it has been reassembled. -/
structure Continues (r r' : Request) : Prop where
  type : r.type = .recv
  index : r'.index = r.index
  split : r.Split → r'.Split
  full : r.Full → r'.Full
  awaits : r'.Full ∨ r'.dataEvents = r.dataEvents

variable {r : Request}

theorem Continues.refl (h : r.type = .recv) : Continues r r := ⟨h, rfl, id, id, .inr rfl⟩

variable {r' : Request}

theorem Continues.trans {r'' : Request} (h : Continues r r') (h' : Continues r' r'') : Continues r r'' where
  type := h.type
  index := h'.index.trans h.index
  split := h'.split ∘ h.split
  full := h'.full ∘ h.full
  awaits := by
    rcases h'.awaits with hfull | he
    · exact .inl hfull
    · rcases h.awaits with hfull | he'
      · exact .inl (h'.full hfull)
      · exact .inr (he.trans he')

theorem Continues.takeChunk {m : Chunk} (h : r.takeChunk m = .ok r') (ht : r.type = .recv) : Continues r r' := by
  rcases takeChunk_cases h with rfl | ⟨-, -, rfl⟩
  · exact .refl ht
  · refine ⟨ht, rfl, id, fun hfull i hi => ?_, .inr rfl⟩
    unfold Request.copyChunk
    dsimp only
    split_ifs
    · rw [testBit_mark, hfull i hi, Bool.true_or]
    · exact hfull i hi

theorem Continues.dropDataEvents (h : r.dropDataEvents = .ok r') (ht : r.type = .recv)
    (hfull : r.Full) : Continues r r' := by
  rw [dropDataEvents_eq h]
  refine ⟨ht, rfl, fun hsplit d => ?_, fun _ => hfull, .inl hfull⟩
  have := hsplit d
  dsimp only
  omega

theorem Continues.update {reqs : Nat → Request} {s : Nat} (hr : r.type = .recv → Continues (reqs s) r)
    (t : Nat) (ht : (update reqs s r t).type = .recv) : Continues (reqs t) (update reqs s r t) := by
  by_cases hts : t = s
  · subst hts
    rw [update_self] at ht ⊢
    exact hr ht
  · rw [update_of_ne hts] at ht ⊢
    exact .refl ht

theorem RetransOutcome.continues {w : World} (hw : Wired w) {m : Chunk} {c : RecvComm} {acks : List AckMsg}
    (h : RetransOutcome w.rcv m c acks) (t : Nat) (ht : (c.reqs t).type = .recv) :
    Continues (w.rcv.reqs t) (c.reqs t) := by
  cases h with
  | idle hreqs => rw [hreqs] at ht ⊢; exact .refl ht
  | old _ hreqs => rw [hreqs] at ht ⊢; exact .refl ht
  | taken r _ htake hreqs =>
    rw [hreqs] at ht ⊢
    refine Continues.update (fun hr => ?_) t ht
    exact .takeChunk htake ((takeChunk_keeps htake).recv hr).1
  | completed r r' hcur htake hmask hdrop hreqs =>
    rw [hreqs] at ht ⊢
    refine Continues.update (fun hr => ?_) t ht
    have hrecv : r.type = .recv := by
      rcases hdrop with rfl | hdrop
      · exact hr
      · rw [dropDataEvents_eq hdrop] at hr
        exact hr
    obtain ⟨hold, -, hn⟩ := (takeChunk_keeps htake).recv hrecv
    have htaken := Continues.takeChunk htake hold
    -- the mask is complete for the header's number of segments, which is the request's
    have hnreqs : r.nreqs = m.hdr.fields.nreqs := by
      unfold Request.current at hcur
      rw [Bool.and_eq_true, Bool.and_eq_true, beq_iff_eq] at hcur
      rw [hn, hcur.1.2]
    have hle : r.nreqs ≤ 8 := by
      obtain ⟨rec, hrec, -, hlen, -⟩ := hw.live _ hold
      have h8 : rec.sizes.length ≤ 8 := (hw.records rec (mem_of_getElem? hrec)).2.2
      omega
    have hfull : r.Full := by
      intro i hi
      rw [hmask, ← hnreqs]
      exact testBit_completeMask hle hi
    rcases hdrop with rfl | hdrop
    · exact htaken
    · exact htaken.trans (.dropDataEvents hdrop hrecv hfull)

theorem laneFree_step {w w' : World} (hw : Wired w) {a : Act} (ha : a.laneFree = true) (hs : w.step a = some w') :
    w'.batches = w.batches ∧ w'.notes = w.notes ∧
      ∀ t, (w'.rcv.reqs t).type = .recv → Continues (w.rcv.reqs t) (w'.rcv.reqs t) := by
  cases a with
  | irecv buffers lanes ctsDev | send sources requests lanes nowUs | notify i env => exact absurd ha Bool.false_ne_true
  | iflush devs =>
    obtain ⟨s, -, rfl⟩ := stepIflush_spec hs
    refine ⟨rfl, rfl, Continues.update ?_⟩
    intro he
    cases he
  | chunk i env =>
    obtain ⟨m, -, -, rfl⟩ := stepChunk_spec hs
    exact ⟨rfl, rfl, (retrans_cases w.rcv m env).continues hw⟩
  | ack i nowUs =>
    obtain ⟨a, -, -, rfl⟩ := stepAck_spec hs
    exact ⟨rfl, rfl, fun t ht => .refl ht⟩
  | timeout nowUs post =>
    rw [stepTimeout_spec hs]
    exact ⟨rfl, rfl, fun t ht => .refl ht⟩
  | windowCqe failed =>
    rw [stepWindowCqe_spec hs]
    exact ⟨rfl, rfl, fun t ht => .refl ht⟩
  | sendCqe s dev =>
    obtain ⟨hpos, rfl⟩ := stepSendCqe_spec hs
    refine ⟨rfl, rfl, Continues.update ?_⟩
    intro hr
    refine ⟨hr, rfl, fun hsplit d => ?_, id, .inr rfl⟩
    have he := hsplit dev
    have h1 := update_sub_one (w.rcv.reqs s).events dev d (by omega)
    have h2 := update_sub_one (w.rcv.reqs s).cqes dev d hpos
    have h3 := hsplit d
    dsimp only
    omega
  | test s =>
    obtain ⟨-, -, rfl⟩ := stepTest_spec hs
    refine ⟨rfl, rfl, Continues.update ?_⟩
    intro he
    cases he

/-! ## Messages of a batch -/

/-- A notification of batch `k` for device `d` of the receiver. -/
def UcMsg.isNotice (link : Link) (k : Nat) (d : Dev) (m : UcMsg) : Bool :=
  match m.kind with
  | .notify _ => m.batch == k && link.rcv.devIndex m.qp == d
  | .write .. => false

variable {b : Batch} {note lane : Nat}

theorem mem_laneMessages {qp : Nat} {m : UcMsg} : m ∈ laneMessages b nqps note lane qp ↔
      (∃ r s, b.segments[r]? = some s ∧ m = ⟨qp, b.index, lane, .write r (stripe s.size nqps lane)⟩) ∨
        m = ⟨qp, b.index, lane, .notify (note + lane)⟩ := by
  rw [laneMessages, mem_append, mem_mapIdx, mem_singleton]
  apply or_congr_left
  constructor
  · rintro ⟨r, hr, rfl⟩
    exact ⟨r, _, getElem?_eq_getElem hr, rfl⟩
  · rintro ⟨r, s, hs, rfl⟩
    obtain ⟨hr, rfl⟩ := List.getElem?_eq_some_iff.1 hs
    exact ⟨r, hr, rfl⟩

theorem mem_batchMessages {qps : List Nat} {m : UcMsg} : m ∈ batchMessages b nqps note lane qps ↔
      ∃ i qp, qps[i]? = some qp ∧ m ∈ laneMessages b nqps note (lane + i) qp := by
  induction qps generalizing lane with
  | nil => simp [batchMessages]
  | cons qp qps ih =>
    rw [batchMessages, mem_append, ih]
    constructor
    · rintro (hm | ⟨i, qp', hi, hm⟩)
      · exact ⟨0, qp, rfl, hm⟩
      · refine ⟨i + 1, qp', hi, ?_⟩
        rwa [← add_assoc, add_right_comm]
    · rintro ⟨i, qp', hi, hm⟩
      cases i with
      | zero =>
        cases hi
        exact .inl hm
      | succ i =>
        refine .inr ⟨i, qp', hi, ?_⟩
        rwa [← add_assoc, add_right_comm] at hm

theorem batchMessages_batch {qps : List Nat} {m : UcMsg}
    (h : m ∈ batchMessages b nqps note lane qps) : m.batch = b.index := by
  obtain ⟨i, qp, -, hm⟩ := mem_batchMessages.1 h
  rcases mem_laneMessages.1 hm with ⟨r, s, -, rfl⟩ | rfl <;> rfl

theorem countP_batchMessages (link : Link) (b : Batch) (nqps note lane : Nat) (qps : List Nat) (k : Nat) (d : Dev) :
    (batchMessages b nqps note lane qps).countP (UcMsg.isNotice link k d) =
      if b.index = k then laneEvents (qps.map link.rcv.devIndex) d else 0 := by
  have hlane : ∀ lane qp, (laneMessages b nqps note lane qp).countP (UcMsg.isNotice link k d) =
      if b.index = k ∧ link.rcv.devIndex qp = d then 1 else 0 := by
    intro lane qp
    have hwrites : (b.segments.mapIdx fun r s =>
        (⟨qp, b.index, lane, .write r (stripe s.size nqps lane)⟩ : UcMsg)).countP (UcMsg.isNotice link k d) = 0 := by
      rw [countP_eq_zero]
      intro m hm
      obtain ⟨r, hr, rfl⟩ := mem_mapIdx.1 hm
      exact Bool.false_ne_true
    rw [laneMessages, countP_append, hwrites, countP_singleton]
    simp [UcMsg.isNotice]
  induction qps generalizing lane with
  | nil => simp [batchMessages, laneEvents]
  | cons qp qps ih =>
    rw [batchMessages, countP_append, hlane, ih]
    by_cases hk : b.index = k
    · simp only [hk, true_and, if_true, laneEvents, map_cons, count_cons, beq_iff_eq]
      omega
    · simp only [hk, false_and, if_false]

theorem ordered_batchMessages (b : Batch) (nqps note lane : Nat) (qps : List Nat) :
    (batchMessages b nqps note lane qps).Pairwise fun m n => ¬ n.AnnouncedBy m := by
  induction qps generalizing lane with
  | nil => exact List.Pairwise.nil
  | cons qp qps ih =>
    rw [batchMessages, pairwise_append]
    refine ⟨?_, ih (lane + 1), ?_⟩
    · have hwrite : ∀ m ∈ b.segments.mapIdx fun r s =>
          (⟨qp, b.index, lane, .write r (stripe s.size nqps lane)⟩ : UcMsg), ∀ n : UcMsg, ¬ n.AnnouncedBy m := by
        rintro m hm n ⟨-, -, -, -, note', hnote⟩
        obtain ⟨r, hr, rfl⟩ := mem_mapIdx.1 hm
        cases hnote
      rw [laneMessages, pairwise_append]
      refine ⟨?_, pairwise_singleton .., fun m hm n _ => hwrite m hm n⟩
      exact pairwise_of_forall_mem_list fun m hm n _ => hwrite m hm n
    · -- the lanes of two chains differ
      rintro m hm n hn ⟨-, -, hlane, -⟩
      obtain ⟨i, qp', -, hn⟩ := mem_batchMessages.1 hn
      have hm' : m.lane = lane := by rcases mem_laneMessages.1 hm with ⟨r, s, -, rfl⟩ | rfl <;> rfl
      have hn' : n.lane = lane + 1 + i := by rcases mem_laneMessages.1 hn with ⟨r, s, -, rfl⟩ | rfl <;> rfl
      omega

/-! ## The invariant -/

/-- The notifications on a device that have not arrived for the receive of batch `k`: all of its lanes, as long as the
batch is not sent. -/
def Striped.owed (link : Link) (u : Striped) (k : Nat) (d : Dev) : Nat :=
  if k < u.world.batches.length then u.wire.missing.countP (UcMsg.isNotice link k d)
  else link.rcv.share 0 link.rcv.count d

/-- The receive has been reassembled, or counts every notification that has not arrived. -/
def Striped.Awaits (link : Link) (u : Striped) (r : Request) : Prop := r.Full ∨ ∀ d, u.owed link r.index d ≤ r.dataEvents d

/-- The messages of lane `i` of batch `k`, on one queue pair. -/
structure Striped.Posted (link : Link) (u : Striped) (k : Nat) (b : Batch) (i qp : Nat) : Prop where
  notify : ∃ note, ⟨qp, k, i, .notify note⟩ ∈ u.wire.sent
  writes : ∀ r s, b.segments[r]? = some s → ⟨qp, k, i, .write r (stripe s.size link.snd.count i)⟩ ∈ u.wire.sent

/-- What every run keeps: where the messages of the batches are, and what the receives count of them. -/
structure Counting (link : Link) (u : Striped) : Prop where
  wired : Wired u.world
  reassembling : ∀ t, (u.world.rcv.reqs t).type = .recv → Reassembling u.world.batches (u.world.rcv.reqs t)
  split : ∀ t, (u.world.rcv.reqs t).type = .recv → (u.world.rcv.reqs t).Split
  awaits : ∀ t, (u.world.rcv.reqs t).type = .recv → u.Awaits link (u.world.rcv.reqs t)
  fits : ∀ b ∈ u.world.batches, ∀ s ∈ b.segments, FitsInt s.size link.snd.count
  ordered : u.wire.Ordered UcMsg.AnnouncedBy
  batches : ∀ m ∈ u.wire.sent, m.batch < u.world.batches.length
  notices : ∀ m ∈ u.wire.sent, ∀ note, m.kind = .notify note →
    ∃ a, u.world.notes[note]? = some a ∧ a.index = m.batch ∧ a.dev = link.rcv.devIndex m.qp
  posted : ∀ k b, u.world.batches[k]? = some b → ∀ i < link.snd.count, ∃ qp, u.Posted link k b i qp
  announced : ∀ n ∈ u.wire.arrived, ∀ m ∈ u.wire.missing, m.AnnouncedBy n → ∀ r x, ¬ m.Writes r x

/-- What a run must avoid to be complete. A send must not overflow the stripe arithmetic; a notification must not arrive
when bytes of a write it announces were lost, nor a notification or a chunk when its slot has been posted again 4095
times. -/
def Striped.Intact (link : Link) (u : Striped) : UcAct → Prop
  | .send sources _ _ _ => ∀ rec, u.world.fifo[u.world.batches.length]? = some rec →
      ∀ s ∈ zipWith clipSegment sources rec.sizes, FitsInt s.size link.snd.count
  | .deliver j _ => ∀ n wire, u.wire.deliver UcMsg.qp j = some (n, wire) → ∀ note, n.kind = .notify note →
      (∀ m ∈ u.wire.lost, m.AnnouncedBy n → ∀ r x, ¬ m.Writes r x) ∧
        ∀ a, u.world.notes[note]? = some a → u.world.reposts a.index (decodeImmData a.immData).2.1 < 4095
  | .other a => FreshChunk u.world a
  | _ => True

section

variable {link : Link} {u u' : Striped}

theorem counting_start (minRtoUs maxRetry : Nat) : Counting link (Striped.start minRtoUs maxRetry) where
  wired := wired_start minRtoUs maxRetry
  reassembling _ ht := nomatch ht
  split _ ht := nomatch ht
  awaits _ ht := nomatch ht
  fits _ hb := nomatch hb
  ordered := List.Pairwise.nil
  batches _ hm := nomatch hm
  notices _ hm := nomatch hm
  posted _ _ hb := nomatch hb
  announced _ hn := nomatch hn

theorem Striped.Posted.mono {k i qp : Nat} (h : u.Posted link k b i qp)
    (hsent : ∀ m ∈ u.wire.sent, m ∈ u'.wire.sent) : u'.Posted link k b i qp := by
  obtain ⟨⟨note, hnote⟩, hwrites⟩ := h
  exact ⟨⟨note, hsent _ hnote⟩, fun r s hs => hsent _ (hwrites r s hs)⟩

theorem Striped.Awaits.of_continues (h : u.Awaits link r) (hc : Continues r r')
    (howed : ∀ d, u'.owed link r.index d ≤ u.owed link r.index d) : u'.Awaits link r' := by
  rcases h with hfull | hle
  · exact .inl (hc.full hfull)
  · rcases hc.awaits with hfull | he
    · exact .inl hfull
    · refine .inr fun d => ?_
      rw [hc.index, he]
      exact (howed d).trans (hle d)

theorem Counting.continues (h : Counting link u) {world : World} (hwired : Wired world)
    (hre : ∀ t, (world.rcv.reqs t).type = .recv → Reassembling world.batches (world.rcv.reqs t))
    (hbatches : world.batches = u.world.batches) (hnotes : world.notes = u.world.notes)
    (hc : ∀ t, (world.rcv.reqs t).type = .recv → Continues (u.world.rcv.reqs t) (world.rcv.reqs t)) :
    Counting link { u with world := world } where
  wired := hwired
  reassembling := hre
  split t ht := (hc t ht).split (h.split t (hc t ht).type)
  awaits t ht := by
    refine (h.awaits t (hc t ht).type).of_continues (hc t ht) fun d => ?_
    rw [Striped.owed, Striped.owed, hbatches]
  fits := by
    rw [hbatches]
    exact h.fits
  ordered := h.ordered
  batches := by
    rw [hbatches]
    exact h.batches
  notices := by
    rw [hnotes]
    exact h.notices
  posted := by
    rw [hbatches]
    intro k b hb i hi
    obtain ⟨qp, hqp⟩ := h.posted k b hb i hi
    exact ⟨qp, hqp.mono fun m hm => hm⟩
  announced := h.announced

variable {j : Nat} {wire : Wire UcMsg}

theorem Counting.lose (h : Counting link u) (hl : u.wire.lose j = some wire) : Counting link { u with wire := wire } := by
  obtain ⟨hperm, harrived, -⟩ := Wire.lose_spec hl
  have hsent : ∀ m, m ∈ wire.sent ↔ m ∈ u.wire.sent := fun m => Wire.mem_sent_lose hl
  refine ⟨h.wired, h.reassembling, h.split, fun t ht => ?_, h.fits, h.ordered.lose hl, ?_, ?_, ?_, ?_⟩
  · refine (h.awaits t ht).of_continues (.refl ht) fun d => ?_
    rw [Striped.owed, Striped.owed, hperm.countP_eq]
  · exact fun m hm => h.batches m ((hsent m).1 hm)
  · exact fun m hm => h.notices m ((hsent m).1 hm)
  · intro k b hb i hi
    obtain ⟨qp, hqp⟩ := h.posted k b hb i hi
    exact ⟨qp, hqp.mono fun m hm => (hsent m).2 hm⟩
  · intro n hn m hm
    rw [harrived] at hn
    exact h.announced n hn m (hperm.mem_iff.1 hm)

variable {buffers : List (Nat × (Nat → UInt8))}

theorem stepIrecv_reqs {w w' : World} {lanes : List Dev} {ctsDev : Dev}
    (hs : w.stepIrecv buffers lanes ctsDev = some w') : w'.batches = w.batches ∧ w'.notes = w.notes ∧
      ∃ s, w'.rcv.reqs = update w.rcv.reqs s (postRecv (w.rcv.reqs s) w.fifo.length buffers lanes ctsDev) := by
  unfold World.stepIrecv at hs
  split at hs
  · cases hs
  split at hs
  · cases hs
  cases hs
  exact ⟨rfl, rfl, _, rfl⟩

variable {policy : LanePolicy}

theorem Counting.irecv (h : Counting link u) {ctsDev : Dev}
    (hs : u.stepIrecv link buffers policy ctsDev = some u') : Counting link u' := by
  obtain ⟨world, hworld, rfl⟩ := map_eq_some_iff.1 hs
  obtain ⟨hbatches, hnotes, s, hreqs⟩ := stepIrecv_reqs hworld
  obtain ⟨r, hr⟩ : ∃ r, postRecv (u.world.rcv.reqs s) u.world.fifo.length buffers
      ((link.rcv.selectAll policy u.rcvQp).1.map link.rcv.devIndex) ctsDev = r := ⟨_, rfl⟩
  rw [hr] at hreqs
  have hsplit : r.Split := by
    rw [← hr]
    exact fun _ => rfl
  -- every batch that was sent answers an earlier record
  have hunsent : u.world.batches.length ≤ r.index := by
    by_contra hlt
    have hindex : r.index = u.world.fifo.length := by
      rw [← hr]
      rfl
    obtain ⟨-, -, -, rec, hrec, -⟩ := h.wired.posted r.index _ (getElem?_eq_getElem (not_le.1 hlt))
    obtain ⟨hi, -⟩ := List.getElem?_eq_some_iff.1 hrec
    omega
  have hawaits : ∀ d, u.owed link r.index d ≤ r.dataEvents d := by
    intro d
    rw [Striped.owed, if_neg (not_lt.2 hunsent), ← hr]
    exact (link.rcv.laneEvents_selectAll policy u.rcvQp d).ge
  have hcases : ∀ {P : Request → Prop}, P r → (∀ t, (u.world.rcv.reqs t).type = .recv → P (u.world.rcv.reqs t)) →
      ∀ t, (world.rcv.reqs t).type = .recv → P (world.rcv.reqs t) := by
    intro P hnew hold t
    rw [hreqs]
    by_cases hts : t = s
    · subst hts
      rw [update_self]
      exact fun _ => hnew
    · rw [update_of_ne hts]
      exact hold t
  have howed : ∀ k d, Striped.owed link { u with
      world := world
      rcvQp := (link.rcv.selectAll policy u.rcvQp).2 } k d = u.owed link k d := by
    intro k d
    rw [Striped.owed, Striped.owed, hbatches]
  have hre := reassembling_step h.wired h.reassembling (.irecv buffers
    ((link.rcv.selectAll policy u.rcvQp).1.map link.rcv.devIndex) ctsDev) trivial hworld
  refine ⟨h.wired.step _ hworld, hre, hcases hsplit h.split, ?_, ?_, h.ordered, ?_, ?_, ?_, h.announced⟩
  · simp only [Striped.Awaits, howed]
    exact hcases (.inr hawaits) h.awaits
  · rw [hbatches]
    exact h.fits
  · rw [hbatches]
    exact h.batches
  · rw [hnotes]
    exact h.notices
  · rw [hbatches]
    intro k b hb i hi
    obtain ⟨qp, hqp⟩ := h.posted k b hb i hi
    exact ⟨qp, hqp.mono fun m hm => hm⟩

variable {sources : List Segment}

theorem stepSend_cases {requests : List Nat} {nowUs : Nat} (hs : u.stepSend link sources requests policy nowUs = some u') :
    ∃ world b, u.world.stepSend sources requests ((link.snd.selectAll policy u.sndQp).1.map link.rcv.devIndex) nowUs =
        some world ∧ world.batches[u.world.batches.length]? = some b ∧
      u' = { u with
        world := world
        sndQp := (link.snd.selectAll policy u.sndQp).2
        wire := u.wire.post (batchMessages b link.snd.count u.world.notes.length 0 (link.snd.selectAll policy u.sndQp).1) } := by
  unfold Striped.stepSend at hs
  dsimp only at hs
  split at hs
  · cases hs
  · rename_i world hworld
    split at hs
    · cases hs
    · rename_i b hb
      cases hs
      exact ⟨world, b, hworld, hb, rfl⟩

section

variable (h : Counting link u)
include h

theorem Counting.send (hlanes : link.snd.count ≤ link.rcv.count) {requests : List Nat} {nowUs : Nat}
    (hok : u.Intact link (.send sources requests policy nowUs))
    (hs : u.stepSend link sources requests policy nowUs = some u') : Counting link u' := by
  obtain ⟨world, b, hworld, hb, rfl⟩ := stepSend_cases hs
  obtain ⟨qps, hqps⟩ : ∃ qps, (link.snd.selectAll policy u.sndQp).1 = qps := ⟨_, rfl⟩
  have hlength : qps.length = link.snd.count := by rw [← hqps, Lanes.selectAll, Lanes.selectFrom_length]
  have hle : ∀ d, laneEvents (qps.map link.rcv.devIndex) d ≤ link.rcv.share 0 link.rcv.count d := by
    rw [← hqps]
    exact link.laneEvents_le hlanes policy u.sndQp
  rw [hqps] at hworld ⊢
  have hwired := h.wired.stepSend hworld
  have hre := reassembling_step h.wired h.reassembling (.send sources requests (qps.map link.rcv.devIndex) nowUs) trivial
    hworld
  obtain ⟨rec, b', hrec, hmake, -, -, hw', -, -⟩ := stepSend_spec hworld
  have hbatches : world.batches = u.world.batches ++ [b'] := by rw [hw']
  have hnotes : world.notes = u.world.notes ++ (qps.map link.rcv.devIndex).map fun d =>
      ⟨encodeImmData b'.seq b'.remoteRequestSlot b'.remoteGeneration, d, b'.index⟩ := by rw [hw']
  have hreqs : world.rcv = u.world.rcv := by rw [hw']
  obtain rfl : b = b' := by
    rw [hbatches, getElem?_concat_length] at hb
    exact (some.inj hb).symm
  have hindex : b.index = u.world.batches.length := (hwired.posted _ b hb).1
  have hlast : world.batches.length = u.world.batches.length + 1 := by rw [hbatches, length_append, length_singleton]
  have hmem : ∀ {m : UcMsg}, m ∈ batchMessages b link.snd.count u.world.notes.length 0 qps → m.batch = u.world.batches.length :=
    fun hm => (batchMessages_batch hm).trans hindex
  have hsent : ∀ m, m ∈ (u.wire.post (batchMessages b link.snd.count u.world.notes.length 0 qps)).sent ↔
      m ∈ u.wire.sent ∨ m ∈ batchMessages b link.snd.count u.world.notes.length 0 qps := fun m => Wire.mem_sent_post
  have hmissing : ∀ {m : UcMsg}, m ∈ u.wire.missing → m ∈ u.wire.sent := fun hm => mem_append_left _ hm
  constructor
  case wired => exact hwired
  case reassembling => exact hre
  case split =>
    rw [hreqs]
    exact h.split
  case awaits =>
    intro t ht
    rw [hreqs] at ht ⊢
    refine (h.awaits t ht).of_continues (.refl ht) fun d => ?_
    obtain ⟨k, hk⟩ : ∃ k, (u.world.rcv.reqs t).index = k := ⟨_, rfl⟩
    rw [hk, Striped.owed, Striped.owed, hlast, Wire.countP_missing_post, countP_batchMessages, hindex]
    rcases lt_trichotomy k u.world.batches.length with hlt | rfl | hgt
    · rw [if_pos (by omega), if_pos hlt, if_neg (by omega)]
      exact le_rfl
    · -- nothing of the batch was in flight
      have hnone : u.wire.missing.countP (UcMsg.isNotice link u.world.batches.length d) = 0 := by
        rw [countP_eq_zero]
        intro m hm hnotice
        have hold := h.batches m (hmissing hm)
        unfold UcMsg.isNotice at hnotice
        split at hnotice
        · rw [Bool.and_eq_true, beq_iff_eq] at hnotice
          omega
        · cases hnotice
      rw [if_pos (by omega), if_neg (lt_irrefl _), if_pos rfl, hnone, zero_add]
      exact hle d
    · rw [if_neg (by omega), if_neg (by omega)]
  case fits =>
    intro b' hb' s hs
    rw [hbatches, mem_append, mem_singleton] at hb'
    rcases hb' with hb' | hb'
    · exact h.fits b' hb' s hs
    · rw [hb', hmake] at hs
      exact hok rec hrec s hs
  case ordered =>
    refine h.ordered.post (ordered_batchMessages ..) fun m hm n hn ⟨_, hbatch, _⟩ => ?_
    have hold := h.batches m (hmissing (mem_append_left _ hm))
    have hnew := hmem hn
    omega
  case batches =>
    intro m hm
    rw [hlast]
    rcases (hsent m).1 hm with hm | hm
    · have := h.batches m hm
      omega
    · have := hmem hm
      omega
  case notices =>
    intro m hm note hnote
    rw [hnotes]
    rcases (hsent m).1 hm with hm | hm
    · obtain ⟨a, ha, hrest⟩ := h.notices m hm note hnote
      exact ⟨a, getElem?_append_some ha _, hrest⟩
    · obtain ⟨i, qp, hi, hm⟩ := mem_batchMessages.1 hm
      rcases mem_laneMessages.1 hm with ⟨r, s, -, rfl⟩ | rfl
      · cases hnote
      · cases hnote
        refine ⟨⟨encodeImmData b.seq b.remoteRequestSlot b.remoteGeneration, link.rcv.devIndex qp, b.index⟩, ?_, rfl, rfl⟩
        rw [Nat.zero_add, getElem?_append_right (Nat.le_add_right _ _), Nat.add_sub_cancel_left, getElem?_map,
          getElem?_map, hi]
        rfl
  case posted =>
    intro k b' hb' i hi
    rw [hbatches] at hb'
    rcases lt_or_ge k u.world.batches.length with hlt | hge
    · rw [getElem?_append_left hlt] at hb'
      obtain ⟨qp, hqp⟩ := h.posted k b' hb' i hi
      exact ⟨qp, hqp.mono fun m hm => (hsent m).2 (.inl hm)⟩
    · rw [getElem?_append_right hge] at hb'
      obtain ⟨hk, rfl⟩ := List.getElem?_eq_some_iff.1 hb'
      rw [length_singleton] at hk
      simp only [getElem_singleton]
      obtain rfl : k = b.index := by omega
      obtain ⟨qp, hqp⟩ : ∃ qp, qps[i]? = some qp := ⟨_, getElem?_eq_getElem (hlength ▸ hi)⟩
      refine ⟨qp, ⟨u.world.notes.length + i, (hsent _).2 (.inr ?_)⟩, fun r s hs => (hsent _).2 (.inr ?_)⟩
      · exact mem_batchMessages.2 ⟨i, qp, hqp, mem_laneMessages.2 (.inr (by rw [zero_add]))⟩
      · exact mem_batchMessages.2 ⟨i, qp, hqp, mem_laneMessages.2 (.inl ⟨r, s, hs, by rw [zero_add]⟩)⟩
  case announced =>
    intro n hn m hm ⟨hqp, hbatch, hlane, hwrite⟩
    rcases Wire.mem_missing_post.1 hm with hm | hm
    · exact h.announced n hn m hm ⟨hqp, hbatch, hlane, hwrite⟩
    · have hold := h.batches n (mem_append_right _ hn)
      have hnew := hmem hm
      omega

theorem Counting.arrive {n : UcMsg} (hd : u.wire.deliver UcMsg.qp j = some (n, wire))
    (hlost : ∀ m ∈ u.wire.lost, m.AnnouncedBy n → ∀ r x, ¬ m.Writes r x) :
    ∀ n' ∈ wire.arrived, ∀ m ∈ wire.missing, m.AnnouncedBy n' → ∀ r x, ¬ m.Writes r x := by
  intro n' hn' m hm
  rw [Wire.deliver_arrived hd, mem_cons] at hn'
  rcases hn' with rfl | hn'
  · rcases mem_append.1 hm with hflight | hm
    · intro hann
      exact absurd hann (h.ordered.deliver_first (fun _ _ hab => hab.1) hd m hflight)
    · rw [(Wire.deliver_spec hd).2.2] at hm
      exact hlost m hm
  · exact h.announced n' hn' m ((Wire.deliver_missing hd).subset (mem_cons_of_mem n hm))

theorem Counting.write {n : UcMsg} (hd : u.wire.deliver UcMsg.qp j = some (n, wire)) {r : Nat} {s : Stripe}
    (hn : n.kind = .write r s) : Counting link { u with wire := wire } := by
  have hsent : ∀ m, m ∈ wire.sent ↔ m ∈ u.wire.sent := fun m => Wire.mem_sent_deliver hd
  refine ⟨h.wired, h.reassembling, h.split, fun t ht => ?_, h.fits, h.ordered.deliver hd, ?_, ?_, ?_, ?_⟩
  · refine (h.awaits t ht).of_continues (.refl ht) fun d => ?_
    have hcount := Wire.countP_missing_deliver (UcMsg.isNotice link (u.world.rcv.reqs t).index d) hd
    unfold Striped.owed
    dsimp only
    split_ifs
    · omega
    · exact le_rfl
  · exact fun m hm => h.batches m ((hsent m).1 hm)
  · exact fun m hm => h.notices m ((hsent m).1 hm)
  · intro k b hb i hi
    obtain ⟨qp, hqp⟩ := h.posted k b hb i hi
    exact ⟨qp, hqp.mono fun m hm => (hsent m).2 hm⟩
  · refine h.arrive hd fun m _ ⟨_, _, _, _, note, hnote⟩ => ?_
    rw [hn] at hnote
    cases hnote

theorem Counting.notify {n : UcMsg} {env : Env} {world : World} (hd : u.wire.deliver UcMsg.qp j = some (n, wire))
    (hn : n.kind = .notify note) (hok : u.Intact link (.deliver j env)) (hs : u.world.step (.notify note env) = some world) :
    Counting link { u with world := world, wire := wire } := by
  obtain ⟨hlost, hfresh⟩ := hok n wire hd note hn
  have hsent : ∀ m, m ∈ wire.sent ↔ m ∈ u.wire.sent := fun m => Wire.mem_sent_deliver hd
  have hwired := h.wired.step _ hs
  have hre := reassembling_step h.wired h.reassembling (.notify note env) trivial hs
  obtain ⟨a, ha, hat, rfl⟩ := stepNotify_spec hs
  obtain ⟨b, hb, hdecode⟩ := h.wired.decode ha
  obtain ⟨a', ha', hbatch, hdev⟩ := h.notices n (mem_append_left _ ((Wire.deliver_missing hd).subset mem_cons_self)) note hn
  obtain rfl : a = a' := by
    rw [hat] at ha'
    exact some.inj ha'
  have hold := hfresh a hat
  rw [hdecode] at hold
  have howed : ∀ k d, Striped.owed link { u with
      world := u.world.afterReceive (decodeImmData a.immData).2.1 (processNotification u.world.rcv a env)
      wire := wire } k d + (if k < u.world.batches.length ∧ a.index = k ∧ a.dev = d then 1 else 0) =
      u.owed link k d := by
    intro k d
    have hcount := Wire.countP_missing_deliver (UcMsg.isNotice link k d) hd
    have hnotice : UcMsg.isNotice link k d n = decide (a.index = k ∧ a.dev = d) := by
      unfold UcMsg.isNotice
      rw [hn, hbatch, hdev, Bool.decide_and]
      rfl
    rw [hnotice] at hcount
    simp only [decide_eq_true_eq] at hcount
    unfold Striped.owed
    dsimp only [World.afterReceive]
    by_cases hk : k < u.world.batches.length
    · simp only [hk, if_true, true_and]
      exact hcount.symm
    · simp only [hk, if_false, false_and]
      rfl
  have howed_le : ∀ k d, Striped.owed link { u with
      world := u.world.afterReceive (decodeImmData a.immData).2.1 (processNotification u.world.rcv a env)
      wire := wire } k d ≤ u.owed link k d := fun k d => by
    have := howed k d
    omega
  -- every receive goes on, except that the one the notification is for may count it down
  have hreq : ∀ t, ((processNotification u.world.rcv a env).2.1.reqs t).type = .recv →
      Continues (u.world.rcv.reqs t) ((processNotification u.world.rcv a env).2.1.reqs t) ∨
        ((u.world.rcv.reqs t).type = .recv ∧ (u.world.rcv.reqs t).index = a.index ∧
          0 < (u.world.rcv.reqs t).dataEvents a.dev ∧ (processNotification u.world.rcv a env).2.1.reqs t =
            (u.world.rcv.reqs t).countDown (a.index % 4096) a.dev) := by
    intro t ht
    cases notify_cases u.world.rcv a env hdecode with
    | idle hreqs => rw [hreqs] at ht ⊢; exact .inl (.refl ht)
    | old _ hreqs => rw [hreqs] at ht ⊢; exact .inl (.refl ht)
    | failed _ _ hreqs =>
      rw [hreqs] at ht ⊢
      refine .inl (Continues.update (fun hr => ?_) t ht)
      exact ⟨hr, rfl, id, id, .inr rfl⟩
    | counted hcounts hpos hreqs =>
      rw [hreqs] at ht ⊢
      by_cases hts : t = b.remoteRequestSlot
      · subst hts
        rw [update_self] at ht ⊢
        exact .inr ⟨ht, h.wired.same_batch hb hcounts.1 hold, hpos, rfl⟩
      · rw [update_of_ne hts] at ht ⊢
        exact .inl (.refl ht)
  constructor
  case wired => exact hwired
  case reassembling => exact hre
  case split =>
    intro t ht
    change ((processNotification u.world.rcv a env).2.1.reqs t).Split
    rcases hreq t ht with hc | ⟨hr, -, hpos, he⟩
    · exact hc.split (h.split t hc.type)
    · intro d
      have hsplit := h.split t hr
      have h1 := hsplit a.dev
      have h2 := hsplit d
      have h3 := update_sub_one (u.world.rcv.reqs t).events a.dev d (by omega)
      have h4 := update_sub_one (u.world.rcv.reqs t).dataEvents a.dev d hpos
      rw [he]
      unfold Request.countDown
      dsimp only
      omega
  case awaits =>
    intro t ht
    change Striped.Awaits link _ ((processNotification u.world.rcv a env).2.1.reqs t)
    rcases hreq t ht with hc | ⟨hr, hindex, hpos, he⟩
    · exact (h.awaits t hc.type).of_continues hc (howed_le _)
    · rw [he]
      rcases h.awaits t hr with hfull | hle
      · exact .inl hfull
      · refine .inr fun d => ?_
        have h1 := howed a.index d
        have h2 := hle d
        have h3 := update_sub_one (u.world.rcv.reqs t).dataEvents a.dev d hpos
        have hlt : a.index < u.world.batches.length := (List.getElem?_eq_some_iff.1 hb).1
        simp only [hlt, true_and, eq_comm (a := a.dev)] at h1
        rw [hindex] at h2
        unfold Request.countDown
        dsimp only
        rw [hindex]
        omega
  case fits => exact h.fits
  case ordered => exact h.ordered.deliver hd
  case batches => exact fun m hm => h.batches m ((hsent m).1 hm)
  case notices => exact fun m hm => h.notices m ((hsent m).1 hm)
  case posted =>
    intro k b' hb' i hi
    obtain ⟨qp, hqp⟩ := h.posted k b' hb' i hi
    exact ⟨qp, hqp.mono fun m hm => (hsent m).2 hm⟩
  case announced => exact h.arrive hd hlost

theorem Counting.step (hlanes : link.snd.count ≤ link.rcv.count) (a : UcAct) (hok : u.Intact link a)
    (hs : u.step link a = some u') : Counting link u' := by
  cases a with
  | irecv buffers policy ctsDev => exact h.irecv hs
  | send sources requests policy nowUs => exact h.send hlanes hok hs
  | lose j =>
    obtain ⟨wire, hl, rfl⟩ := map_eq_some_iff.1 hs
    exact h.lose hl
  | deliver j env =>
    change u.stepDeliver j env = some u' at hs
    unfold Striped.stepDeliver at hs
    split at hs
    · cases hs
    · rename_i n wire hd
      split at hs
      · rename_i r s hn
        cases hs
        exact h.write hd hn
      · rename_i note hn
        obtain ⟨world, hworld, rfl⟩ := map_eq_some_iff.1 hs
        exact h.notify hd hn hok hworld
  | other a =>
    change (if a.laneFree then (u.world.step a).map fun world => { u with world := world } else none) = some u' at hs
    split at hs
    · rename_i hfree
      obtain ⟨world, hworld, rfl⟩ := map_eq_some_iff.1 hs
      obtain ⟨hbatches, hnotes, hc⟩ := laneFree_step h.wired hfree hworld
      exact h.continues (h.wired.step a hworld) (reassembling_step h.wired h.reassembling a hok hworld) hbatches hnotes hc
    · cases hs

end

/-! ## Complete receives -/

theorem Counting.written_of_full (h : Counting link u) {t : Nat} (ht : (u.world.rcv.reqs t).type = .recv)
    (hfull : (u.world.rcv.reqs t).Full) :
    ∃ b, u.world.batches[(u.world.rcv.reqs t).index]? = some b ∧
      ∀ r s, b.segments[r]? = some s → ∀ x < s.size, u.Written (u.world.rcv.reqs t) r x := by
  have hre := h.reassembling t ht
  obtain ⟨rec, hrec, -, hn, -⟩ := h.wired.live t ht
  have hpos := (h.wired.records rec (mem_of_getElem? hrec)).2.1
  -- the first segment is marked, so the batch was sent
  obtain ⟨-, b, s, hb, -, -⟩ := (hre.marks 0).1 (hfull 0 (by omega))
  refine ⟨b, hb, fun r s hs x hx => .inr ?_⟩
  obtain ⟨rec', hrec', -, -, hnb, -⟩ := h.wired.record hb
  have hr : r < b.segments.length := (List.getElem?_eq_some_iff.1 hs).1
  have hlt : r < (u.world.rcv.reqs t).nreqs := by
    rw [hrec] at hrec'
    cases hrec'
    rw [← hn, ← hnb]
    exact hr
  exact ((hre.reassembled.complete b r s hb hs).1 (hfull r hlt)).2 x hx

theorem Counting.written_of_notified (h : Counting link u) {k : Nat} (hb : u.world.batches[k]? = some b)
    (hnone : ∀ d, u.wire.missing.countP (UcMsg.isNotice link k d) = 0) {r x : Nat} {s : Segment}
    (hs : b.segments[r]? = some s) (hx : x < s.size) : ∃ m ∈ u.wire.arrived, m.batch = k ∧ m.Writes r x := by
  have hfits := h.fits b (mem_of_getElem? hb) s (mem_of_getElem? hs)
  obtain ⟨i, hi, hcovers⟩ := stripe_covers link.snd.count_pos hfits hx
  obtain ⟨qp, ⟨note, hnote⟩, hwrites⟩ := h.posted k b hb i hi
  have hnotified : (⟨qp, k, i, .notify note⟩ : UcMsg) ∈ u.wire.arrived := by
    rcases mem_append.1 hnote with hmissing | harrived
    · refine absurd ?_ (countP_eq_zero.1 (hnone (link.rcv.devIndex qp)) _ hmissing)
      simp [UcMsg.isNotice]
    · exact harrived
  rcases mem_append.1 (hwrites r s hs) with hmissing | harrived
  · exact absurd ⟨_, rfl, hcovers⟩ (h.announced _ hnotified _ hmissing ⟨rfl, rfl, rfl, ⟨_, _, rfl⟩, ⟨_, rfl⟩⟩ r x)
  · exact ⟨_, harrived, rfl, _, rfl, hcovers⟩

/-- **Complete receives.** When the sender has no more lanes than the receiver and no run step is one `Intact` excludes,
every byte of a receive that is done was written by a UC write of its batch or a retransmitted chunk. -/
theorem receive_complete (link : Link) {minRtoUs maxRetry : Nat} {u : Striped}
    (h : Reach (Striped.step link) (Striped.Intact link) (Striped.start minRtoUs maxRetry) u)
    (hlanes : link.snd.count ≤ link.rcv.count) (t : Nat) (hdone : u.Done t) :
    ∃ b, u.world.batches[(u.world.rcv.reqs t).index]? = some b ∧
      ∀ r s, b.segments[r]? = some s → ∀ x < s.size, u.Written (u.world.rcv.reqs t) r x := by
  have hc : Counting link u := h.invariant (counting_start minRtoUs maxRetry) fun _ _ a hc hok hs => hc.step hlanes a hok hs
  obtain ⟨ht, hzero⟩ := hdone
  rcases hc.awaits t ht with hfull | hle
  · exact hc.written_of_full ht hfull
  have howed : ∀ d, u.owed link (u.world.rcv.reqs t).index d = 0 := by
    intro d
    have h1 := hle d
    have h2 := hc.split t ht d
    have h3 := hzero d
    omega
  by_cases hk : (u.world.rcv.reqs t).index < u.world.batches.length
  · refine ⟨_, getElem?_eq_getElem hk, fun r s hs x hx => .inl ?_⟩
    refine hc.written_of_notified (getElem?_eq_getElem hk) (fun d => ?_) hs hx
    have := howed d
    rwa [Striped.owed, if_pos hk] at this
  · -- nothing of the batch has arrived, and the receive waits for at least one lane
    have hshare := link.rcv.share_zero_pos
    have := howed 0
    rw [Striped.owed, if_neg hk] at this
    omega

end

def oneLaneLink : Link := ⟨oneLane, oneLane, rfl, rfl⟩

/-- A byte for slot 0: its write and its notification are in flight. -/
def oneWrite : List UcAct :=
  [.irecv [(1, fun _ => 0)] .unordered 0, .other (.sendCqe 0 0), .send [⟨1, fun _ => 7⟩] [0] .unordered 0]

/-- **A write that is lost is not noticed**: its notification arrives, and the receive is done without its byte. -/
theorem lostWrite_reported_done : ∃ u, Reach (Striped.step oneLaneLink) (fun _ _ => True) (Striped.start 1 1) u ∧
    u.Done 0 ∧ (∃ b s, u.world.batches[(u.world.rcv.reqs 0).index]? = some b ∧ b.segments[0]? = some s ∧ s.size = 1) ∧
    ¬ u.Written (u.world.rcv.reqs 0) 0 0 := by
  obtain ⟨acts, hacts⟩ : ∃ acts, oneWrite ++ [.lose 0, .deliver 0 quietEnv] = acts := ⟨_, rfl⟩
  obtain ⟨u, hu⟩ : ∃ u, exec (Striped.step oneLaneLink) (Striped.start 1 1) acts = some u :=
    isSome_iff_exists.1 (by rw [← hacts]; decide)
  have hreq : (exec (Striped.step oneLaneLink) (Striped.start 1 1) acts).map (fun u => ((u.world.rcv.reqs 0).type,
      (u.world.rcv.reqs 0).index, (u.world.rcv.reqs 0).events 0, (u.world.rcv.reqs 0).events 1,
      (u.world.rcv.reqs 0).copies.length)) = some (.recv, 0, 0, 0, 0) := by
    rw [← hacts]
    decide
  have hbatch : (exec (Striped.step oneLaneLink) (Striped.start 1 1) acts).map (fun u =>
      u.world.batches.map fun b => b.segments.map (·.size)) = some [[1]] := by
    rw [← hacts]
    decide
  have hwire : (exec (Striped.step oneLaneLink) (Striped.start 1 1) acts).map (fun u => u.wire.arrived.all fun m =>
      m.isNotice oneLaneLink 0 0) = some true := by
    rw [← hacts]
    decide
  rw [hu, map_some, some.injEq] at hreq hbatch hwire
  simp only [Prod.mk.injEq] at hreq
  obtain ⟨htype, hindex, h0, h1, hcopies⟩ := hreq
  obtain ⟨b, hb, hsegments⟩ := map_eq_singleton_iff.1 hbatch
  obtain ⟨s, hs, hsize⟩ := map_eq_singleton_iff.1 hsegments
  refine ⟨u, .of_exec (fun _ _ _ => trivial) hu, ⟨htype, Fin.forall_fin_two.2 ⟨h0, h1⟩⟩, ⟨b, s, ?_, ?_, hsize⟩, ?_⟩
  · rw [hindex, hb]
    rfl
  · rw [hs]
    rfl
  · rintro (⟨m, hm, -, stripe, hkind, -⟩ | ⟨c, hc, -⟩)
    · have := all_eq_true.1 hwire m hm
      rw [UcMsg.isNotice, hkind] at this
      cases this
    · rw [length_eq_zero_iff.1 hcopies] at hc
      cases hc

/-- `Intact` where nothing was lost, no chunk arrives and few receives were posted. -/
def intactCheck (link : Link) (u : Striped) : UcAct → Bool
  | .send sources _ _ _ => u.world.fifo[u.world.batches.length]?.all fun rec =>
      (zipWith clipSegment sources rec.sizes).all fun s => decide (FitsInt s.size link.snd.count)
  | .deliver _ _ => u.wire.lost.isEmpty && decide (u.world.fifo.length < 4095)
  | .other (.chunk _ _) => false
  | _ => true

theorem intact_of_check (link : Link) (u : Striped) (a : UcAct) (h : intactCheck link u a = true) : u.Intact link a := by
  cases a with
  | irecv buffers policy ctsDev => trivial
  | send sources requests policy nowUs =>
    intro rec hrec s hs
    change Option.all _ _ = true at h
    rw [hrec, all_some] at h
    exact of_decide_eq_true (all_eq_true.1 h s hs)
  | lose j => trivial
  | deliver j env =>
    change (u.wire.lost.isEmpty && decide (u.world.fifo.length < 4095)) = true at h
    rw [Bool.and_eq_true, List.isEmpty_iff, decide_eq_true_eq] at h
    intro n wire hd note hn
    refine ⟨fun m hm => ?_, fun a ha => ?_⟩
    · rw [h.1] at hm
      cases hm
    · exact (reposts_le ..).trans_lt h.2
  | other a =>
    cases a with
    | chunk i env => cases h
    | _ => trivial

theorem receive_complete_one_write : ∃ u,
    Reach (Striped.step oneLaneLink) (Striped.Intact oneLaneLink) (Striped.start 1 1) u ∧ u.Done 0 ∧
    ∃ b, u.world.batches[(u.world.rcv.reqs 0).index]? = some b ∧
      ∀ r s, b.segments[r]? = some s → ∀ x < s.size, u.Written (u.world.rcv.reqs 0) r x := by
  obtain ⟨step, hstep⟩ : ∃ step : Striped → UcAct → Option Striped,
    (fun u a => if intactCheck oneLaneLink u a then u.step oneLaneLink a else none) = step := ⟨_, rfl⟩
  obtain ⟨u, hu⟩ : ∃ u, exec step (Striped.start 1 1) (oneWrite ++ [.deliver 0 quietEnv, .deliver 0 quietEnv]) = some u :=
    isSome_iff_exists.1 (by rw [← hstep]; decide)
  have hreq : (exec step (Striped.start 1 1) (oneWrite ++ [.deliver 0 quietEnv, .deliver 0 quietEnv])).map (fun u =>
      ((u.world.rcv.reqs 0).type, (u.world.rcv.reqs 0).events 0, (u.world.rcv.reqs 0).events 1)) = some (.recv, 0, 0) := by
    rw [← hstep]
    decide
  rw [hu, map_some, some.injEq] at hreq
  simp only [Prod.mk.injEq] at hreq
  obtain ⟨htype, h0, h1⟩ := hreq
  have hdone : u.Done 0 := ⟨htype, Fin.forall_fin_two.2 ⟨h0, h1⟩⟩
  subst hstep
  have hreach := Reach.of_checked (intact_of_check oneLaneLink) hu
  exact ⟨u, hreach, hdone, receive_complete oneLaneLink hreach (le_rfl) 0 hdone⟩

end FlagCX.Ib
