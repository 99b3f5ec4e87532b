import FlagCX.Lib.History
import FlagCX.Rma.Origin

/-!
# Ready signals (`flagcxRmaSignalReady`, `readySeqsCpu`)

A stream-ordered operation may be posted once its own ready signal has fired. One word for each peer carries all these
signals, and the publication of an operation without a stream stores to it as well. `Peer.Passes` says that a store goes
past a signal that has not fired; in runs without such stores readiness is as it should be (`rma_ready`).
-/

namespace FlagCX.Rma
open List Option

open Net Lib

variable {n : Nat} {c : Config n}

/-! ## Stores to the ready word -/

/-- A store of `seq` to `readySeqsCpu` goes past a ready signal that has not fired. -/
def Peer.Passes (peer : Peer) (seq : UInt64) : Prop := ∃ s ∈ peer.signals, s < seq

instance (peer : Peer) (seq : UInt64) : Decidable (peer.Passes seq) := by unfold Peer.Passes; infer_instance

/-- The store of a publication, or of a ready signal that fires, goes past no other ready signal. -/
def InOrder (r : Run n) : Action n → Prop
  | .publish p => ∀ e f f', (r.proxy.peers p).lock = .admitted e → e.stores = true →
      submitAll p r.proxy.fabric ((number (r.proxy.peers p).opSeq e.descs).map (·.toSubmission)) = some f →
      sealed? f e.group = some f' → ¬ (r.proxy.peers p).Passes (e.last (r.proxy.peers p).opSeq)
  | .signal p k => ∀ seq, (r.proxy.peers p).signals[k]? = some seq → ¬ (r.proxy.peers p).Passes seq
  | _ => True

/-- What is handed to the network was published, and the ready signal it waits for has fired. -/
def ReadyBefore (pre : List (Note n)) : Note n → Prop
  | .handed p d _ _ => (∃ awaits, .published p d awaits ∈ pre) ∧ ∀ s, .published p d (some s) ∈ pre → .fired p s ∈ pre
  | _ => True

/-! ## What the moves store -/

section Cases
variable {x y : Core n} {a : Action n} {ns : List (Note n)}

/-- Neither a publication nor a ready signal. -/
def Note.Plain : Note n → Prop
  | .published _ _ _ => False
  | .fired _ _ => False
  | _ => True

def Peer.counters (peer : Peer) : UInt64 × UInt64 × List UInt64 := (peer.opSeq, peer.readySeq, peer.signals)

theorem Move.counters_cases (h : Move c x a y ns) :
    (∃ p e f f', a = .publish p ∧ (x.peers p).lock = .admitted e ∧
      submitAll p x.fabric ((number (x.peers p).opSeq e.descs).map (·.toSubmission)) = some f ∧
      sealed? f e.group = some f' ∧ y.peers = (x.setPeer p ((x.peers p).publish c e)).peers ∧
      ns = (number (x.peers p).opSeq e.descs).map fun d =>
        .published p d.toSubmission (if e.signals then some (e.last (x.peers p).opSeq) else none)) ∨
    (∃ p k seq, a = .signal p k ∧ (x.peers p).signals[k]? = some seq ∧
      y = x.setPeer p { x.peers p with readySeq := seq, signals := (x.peers p).signals.eraseIdx k } ∧
      ns = [.fired p seq]) ∨
    (∀ q, (y.peers q).counters = (x.peers q).counters) ∧ ∀ v ∈ ns, v.Plain := by
  have keep : ∀ {p : Fin n} {peer : Peer}, peer.counters = (x.peers p).counters →
      ∀ q, ((x.setPeer p peer).peers q).counters = (x.peers q).counters := Core.setPeer_field Peer.counters
  have one : ∀ v : Note n, v.Plain → ∀ w ∈ [v], w.Plain := by
    intro v hv w hw
    rwa [mem_singleton.1 hw]
  have none : ∀ v ∈ ([] : List (Note n)), v.Plain := fun v hv => absurd hv not_mem_nil
  cases h with
  | publish p e f f' hlock hsubmit hseal => exact .inl ⟨p, e, f, f', rfl, hlock, hsubmit, hseal, rfl, rfl⟩
  | signal p k seq hk => exact .inr (.inl ⟨p, k, seq, rfl, hk, rfl, rfl⟩)
  | admitCall | admitGroup | unpublish | arm | openDomain | prune => exact .inr (.inr ⟨keep rfl, none⟩)
  | takeTracked | dataDone => exact .inr (.inr ⟨keep rfl, one _ trivial⟩)
  | deliver p i d => exact .inr (.inr ⟨fun _ => rfl, one (.delivered p d.toSubmission (x.peers p).staging) trivial⟩)
  | hand p ds call result | take p hs ds =>
    refine .inr (.inr ⟨keep rfl, fun v hv => ?_⟩)
    obtain ⟨d, -, rfl⟩ := mem_map.1 hv
    trivial
  | domain p index ans pendingError =>
    refine .inr (.inr ⟨keep rfl, fun v hv => ?_⟩)
    rcases (walkDomain_walks _ _).2 v hv with ⟨_, _, _, _, _, rfl⟩ | ⟨_, _, _, _, rfl⟩ <;> trivial
  | retire p i d result =>
    obtain ⟨doneSeq, hpeers⟩ := x.retire_peers p i d.toSubmission result
    rw [hpeers]
    exact .inr (.inr ⟨keep rfl, one _ trivial⟩)
  | settle p d result =>
    obtain ⟨doneSeq, hpeers⟩ := x.settle_peers p d.toSubmission result
    rw [hpeers]
    refine .inr (.inr ⟨keep rfl, fun v hv => ?_⟩)
    rcases mem_cons.1 hv with rfl | hv
    · trivial
    · exact one (.completed p d.toSubmission result _) trivial v hv

end Cases

/-! ## Runs in order -/

/-- In runs in order: the pending signals ascend to the operation sequence, the ready word is below them, and below every
operation whose signal has not fired. -/
structure Readied (p : Fin n) (peer : Peer) (l : List (Note n)) : Prop where
  le : peer.readySeq.toNat ≤ peer.opSeq.toNat
  distinct : peer.signals.Nodup
  below : ∀ s ∈ peer.signals, peer.readySeq.toNat < s.toNat ∧ s.toNat ≤ peer.opSeq.toNat
  apart : ∀ d s, .published p d (some s) ∈ l → ∀ v ∈ peer.signals, v.toNat < s.toNat → v.toNat < d.opSeq.toNat
  waits : ∀ d s, .published p d (some s) ∈ l → d.streamEvent = false ∧ d.opSeq.toNat ≤ s.toNat ∧
    s.toNat ≤ peer.opSeq.toNat ∧ (.fired p s ∈ l ∨ s ∈ peer.signals ∧ peer.readySeq.toNat < d.opSeq.toNat)

theorem readied_init (p : Fin n) : Readied p Peer.init [] :=
  ⟨le_rfl, .nil, fun _ h => absurd h not_mem_nil, fun _ _ h => absurd h not_mem_nil,
    fun _ _ h => absurd h not_mem_nil⟩

section Readied
variable {p : Fin n} {peer peer' : Peer} {l m : List (Note n)}

theorem Readied.plain (h : Readied p peer l) (heq : peer'.counters = peer.counters) (hm : ∀ v ∈ m, v.Plain) :
    Readied p peer' (l ++ m) := by
  obtain ⟨hop, hready, hsignals⟩ : peer'.opSeq = peer.opSeq ∧ peer'.readySeq = peer.readySeq ∧
      peer'.signals = peer.signals := by
    simpa [Peer.counters] using heq
  have hold : ∀ d s, .published p d (some s) ∈ l ++ m → .published p d (some s) ∈ l := by
    intro d s hd
    exact (mem_append.1 hd).resolve_right fun hin => hm _ hin
  refine ⟨by rw [hop, hready]; exact h.le, by rw [hsignals]; exact h.distinct, ?_, fun d s hd => ?_, fun d s hd => ?_⟩
  · rw [hop, hready, hsignals]
    exact h.below
  · rw [hsignals]
    exact h.apart d s (hold d s hd)
  · obtain ⟨hev, hle, hlast, hw⟩ := h.waits d s (hold d s hd)
    refine ⟨hev, hle, by rw [hop]; exact hlast, ?_⟩
    rw [hready, hsignals]
    exact hw.imp_left (mem_append_left m)

theorem Readied.fire (h : Readied p peer l) {k : Nat} {seq : UInt64} (hk : peer.signals[k]? = some seq)
    (hpass : ¬ peer.Passes seq) :
    Readied p { peer with readySeq := seq, signals := peer.signals.eraseIdx k } (l ++ [.fired p seq]) := by
  have hmem := mem_of_getElem? hk
  have hrest : ∀ s ∈ peer.signals.eraseIdx k, s ∈ peer.signals ∧ seq.toNat < s.toNat := by
    intro s hs
    rw [mem_eraseIdx_iff_getElem?] at hs
    obtain ⟨i, hi, hs⟩ := hs
    have hin := mem_of_getElem? hs
    have hle : seq.toNat ≤ s.toNat := by
      rw [← UInt64.le_iff_toNat_le, ← UInt64.not_lt]
      exact fun hlt => hpass ⟨s, hin, hlt⟩
    have hne : seq.toNat ≠ s.toNat := by
      intro he
      rw [UInt64.toNat_inj.1 he, ← hs] at hk
      obtain ⟨hlt, -⟩ := List.getElem?_eq_some_iff.1 hs
      exact hi ((getElem?_inj hlt h.distinct).1 hk.symm)
    exact ⟨hin, by omega⟩
  have hold : ∀ d s, .published p d (some s) ∈ l ++ [.fired p seq] → .published p d (some s) ∈ l := by
    intro d s hd
    simpa using hd
  refine ⟨(h.below seq hmem).2, h.distinct.sublist (eraseIdx_sublist ..), fun s hs => ?_, fun d s hd v hv => ?_,
    fun d s hd => ?_⟩
  · exact ⟨(hrest s hs).2, (h.below s (hrest s hs).1).2⟩
  · exact h.apart d s (hold d s hd) v (hrest v hv).1
  · obtain ⟨hev, hle, hop, hw⟩ := h.waits d s (hold d s hd)
    refine ⟨hev, hle, hop, ?_⟩
    rcases hw with hw | ⟨hs, -⟩
    · exact .inl (mem_append_left _ hw)
    · rcases eq_or_ne s seq with rfl | hne
      · exact .inl (mem_append_right _ (mem_singleton_self _))
      · obtain ⟨i, hi⟩ := getElem?_of_mem hs
        have hik : i ≠ k := by
          rintro rfl
          exact hne (some.inj (hi.symm.trans hk))
        have hin : s ∈ peer.signals.eraseIdx k := mem_eraseIdx_iff_getElem?.2 ⟨i, hik, hi⟩
        exact .inr ⟨hin, h.apart d s (hold d s hd) seq hmem (hrest s hin).2⟩

theorem Enqueue.stores_pos {e : Enqueue} (h : e.stores = true) : 0 < e.descs.length := by
  cases e with
  | desc d ready => exact one_pos
  | batch ds =>
    have hne : ds ≠ [] := by simpa [Enqueue.stores] using h
    exact length_pos_iff.2 hne
  | releaseGroup data release ready => simp [Enqueue.descs]
  | ipcGet d => exact one_pos

theorem Enqueue.signals_pos {e : Enqueue} (h : e.signals = true) : 0 < e.descs.length ∧ e.stores = false := by
  cases e with
  | desc d ready =>
    rw [Enqueue.signals, Bool.and_eq_true] at h
    exact ⟨one_pos, by rw [Enqueue.stores, h.1]; rfl⟩
  | releaseGroup data release ready => exact ⟨by simp [Enqueue.descs], by rw [Enqueue.stores]; exact congrArg not h⟩
  | batch | ipcGet => cases h

theorem Readied.publish (h : Readied p peer l) (hb : Book c peer l) {e : Enqueue} (hlock : peer.lock = .admitted e)
    (hmax : ∀ d ∈ number peer.opSeq e.descs, d.sequence ≠ uint64Max)
    (hevent : e.signals = true → ∀ d ∈ e.descs, d.streamEvent = false)
    (hpass : e.stores = true → ¬ peer.Passes (e.last peer.opSeq)) :
    Readied p (peer.publish c e) (l ++ (number peer.opSeq e.descs).map fun d =>
      .published p d.toSubmission (if e.signals then some (e.last peer.opSeq) else none)) := by
  obtain ⟨h1, h2, h3⟩ := publish_submissions (number peer.opSeq e.descs) p
    (if e.signals then some (e.last peer.opSeq) else none)
  have hcount : (e.last peer.opSeq).toNat = peer.opSeq.toNat + e.descs.length := by
    have hafter := (hb.publish hlock hmax h1 h2 h3).count
    rw [published_append, h1, length_append, length_map, number_length, ← hb.count] at hafter
    exact hafter
  have hop := h.le
  -- a store leaves no signal pending
  have hnone : e.stores = true → peer.signals = [] := by
    intro hs
    refine eq_nil_iff_forall_not_mem.2 fun s hin => hpass hs ⟨s, hin, ?_⟩
    have := (h.below s hin).2
    have := e.stores_pos hs
    rw [UInt64.lt_iff_toNat_lt]
    omega
  have hsignals : ∀ s ∈ (peer.publish c e).signals, s ∈ peer.signals ∨ e.signals = true ∧ s = e.last peer.opSeq := by
    intro s hs
    refine (mem_append.1 hs).imp_right fun hs => ?_
    split_ifs at hs with he
    · exact ⟨he, mem_singleton.1 hs⟩
    · exact absurd hs not_mem_nil
  have hready : (peer.publish c e).readySeq = if e.stores then e.last peer.opSeq else peer.readySeq := rfl
  have hkeep : ∀ s ∈ (peer.publish c e).signals, (peer.publish c e).readySeq = peer.readySeq := by
    intro s hs
    rw [hready]
    split_ifs with hst
    · rcases hsignals s hs with hold | ⟨hsig, -⟩
      · rw [hnone hst] at hold
        exact absurd hold not_mem_nil
      · rw [(e.signals_pos hsig).2] at hst
        cases hst
    · rfl
  have hbelow : ∀ s ∈ (peer.publish c e).signals, peer.readySeq.toNat < s.toNat ∧ s.toNat ≤ (e.last peer.opSeq).toNat := by
    intro s hs
    rcases hsignals s hs with hold | ⟨hsig, rfl⟩
    · have := h.below s hold
      omega
    · have := (e.signals_pos hsig).1
      omega
  -- the sequences of the new descriptors
  have hnew : ∀ (d : Submission) (s : UInt64), Note.published p d (some s) ∈ (number peer.opSeq e.descs).map (fun d =>
      Note.published p d.toSubmission (if e.signals then some (e.last peer.opSeq) else none)) →
      e.signals = true ∧ s = e.last peer.opSeq ∧ d.streamEvent = false ∧ peer.opSeq.toNat < d.opSeq.toNat ∧
        d.opSeq.toNat ≤ s.toNat := by
    intro d s hd
    obtain ⟨d', hd', heq⟩ := mem_map.1 hd
    split_ifs at heq with hsig
    · cases heq
      obtain ⟨i, hi⟩ := getElem?_of_mem hd'
      have hseq := (hb.number_spec hmax hi).1
      rw [← hb.count] at hseq
      have hlen := (List.getElem?_eq_some_iff.1 hi).1
      rw [number_length] at hlen
      rw [number_getElem?, map_eq_some_iff] at hi
      obtain ⟨e', he', rfl⟩ := hi
      exact ⟨hsig, rfl, hevent hsig e' (mem_of_getElem? he'), by omega, by omega⟩
    · cases heq
  refine ⟨?_, ?_, fun s hs => ?_, fun d s hd v hv hlt => ?_, fun d s hd => ?_⟩
  · show (if e.stores then e.last peer.opSeq else peer.readySeq).toNat ≤ (e.last peer.opSeq).toNat
    split_ifs
    · exact le_rfl
    · omega
  · show (peer.signals ++ if e.signals then [e.last peer.opSeq] else []).Nodup
    split_ifs with hsig
    · refine List.Nodup.append h.distinct (nodup_singleton _) fun s hs hlast => ?_
      have hle := (h.below s hs).2
      have hpos := (e.signals_pos hsig).1
      rw [mem_singleton.1 hlast] at hle
      omega
    · rw [append_nil]
      exact h.distinct
  · rw [hkeep s hs]
    exact hbelow s hs
  · rcases mem_append.1 hd with hd | hd
    · rcases hsignals v hv with hold | ⟨hsig, rfl⟩
      · exact h.apart d s hd v hold hlt
      · have := (h.waits d s hd).2.2.1
        omega
    · obtain ⟨-, rfl, -, hlow, -⟩ := hnew d s hd
      rcases hsignals v hv with hold | ⟨hsig, rfl⟩
      · have := (h.below v hold).2
        omega
      · omega
  · rcases mem_append.1 hd with hd | hd
    · obtain ⟨hev, hle, hops, hw⟩ := h.waits d s hd
      refine ⟨hev, hle, ?_, hw.imp (mem_append_left _) fun hw => ?_⟩
      · show s.toNat ≤ (e.last peer.opSeq).toNat
        omega
      · have hin : s ∈ (peer.publish c e).signals := mem_append_left _ hw.1
        rw [hkeep s hin]
        exact ⟨hin, hw.2⟩
    · obtain ⟨hsig, rfl, hev, hlow, hle⟩ := hnew d s hd
      have hin : e.last peer.opSeq ∈ (peer.publish c e).signals := by
        refine mem_append_right _ ?_
        rw [if_pos hsig]
        exact mem_singleton_self _
      refine ⟨hev, hle, le_rfl, .inr ⟨hin, ?_⟩⟩
      rw [hkeep _ hin]
      omega

end Readied

/-- What every run in order keeps. -/
structure Ready (c : Config n) (x : Core n) (log : List (Note n)) : Prop where
  books : ∀ p, Book c (x.peers p) (view p log)
  origin : ∀ p, Origin c (x.peers p) (view p log)
  readied : ∀ p, Readied p (x.peers p) (view p log)
  posts : Justified ReadyBefore log

section Run
variable {x y : Core n} {a : Action n} {log ns : List (Note n)} {r : Run n}

theorem mem_view_self {p : Fin n} {v : Note n} (hv : v.peer = p) : v ∈ view p log ↔ v ∈ log :=
  mem_view.trans (and_iff_left hv)

theorem Move.readied (h : Move c x a y ns) (hr : Ready c x log)
    (hg : (∀ ans, a ≠ .progress ans) → ∃ s : Proxy n, s.toCore = x ∧ InOrder ⟨s, log⟩ a) (q : Fin n) :
    Readied q (y.peers q) (view q (log ++ ns)) := by
  rcases h.counters_cases with ⟨p, e, f, f', rfl, hlock, hsubmit, hseal, hy, rfl⟩ | ⟨p, k, seq, rfl, hk, rfl, rfl⟩ |
    ⟨hcounters, hplain⟩
  · obtain ⟨s, rfl, hok⟩ := hg (by simp)
    rw [hy]
    refine forall_setPeer (P := fun q peer l => Readied q peer l) hr.readied ?_ ?_ q
    · intro v hv
      obtain ⟨d, -, rfl⟩ := mem_map.1 hv
      rfl
    · refine (hr.readied p).publish (hr.books p) hlock ?_ ?_ fun hst => hok e f f' hlock hst hsubmit hseal
      · exact fun d hd => submitAll_sequence hsubmit _ (mem_map_of_mem hd)
      · obtain ⟨call, g, gid, rfl, -⟩ := (hr.origin p).lock e hlock
        exact call.signals_event g gid
  · obtain ⟨s, rfl, hok⟩ := hg (by simp)
    refine forall_setPeer (P := fun q peer l => Readied q peer l) hr.readied (by simp [Note.peer]) ?_ q
    exact (hr.readied p).fire hk (hok seq hk)
  · rw [view_append]
    exact (hr.readied q).plain (hcounters q) fun v hv => hplain v (mem_view.1 hv).1

theorem Move.posts (h : Move c x a y ns) (hr : Ready c x log) : Justified ReadyBefore (log ++ ns) := by
  rcases h.handed_cases with ⟨p, ds, call, result, hheads, hready, -, -, rfl⟩ | hnone
  · refine hr.posts.append fun pre v post he => ?_
    have hsplit := map_eq_append_iff.1 he
    obtain ⟨ds₁, ds₂, rfl, rfl, htail⟩ := hsplit
    obtain ⟨d, ds₃, rfl, rfl, -⟩ := map_eq_cons_iff.1 htail
    have hmem : d ∈ ds₁ ++ d :: ds₃ := mem_append_right _ mem_cons_self
    obtain ⟨awaits, hpub⟩ := mem_published.1 (hheads.published (hr.books p) d hmem)
    refine ⟨⟨awaits, mem_append_left _ hpub⟩, fun s hs => mem_append_left _ ?_⟩
    have hs : Note.published p d.toSubmission (some s) ∈ view p log := by
      rcases mem_append.1 hs with hs | hs
      · exact (mem_view_self rfl).2 hs
      · obtain ⟨d', -, hd'⟩ := mem_map.1 hs
        cases hd'
    obtain ⟨hev, -, -, hw⟩ := (hr.readied p).waits _ s hs
    rcases hw with hw | ⟨-, hlt⟩
    · exact (mem_view.1 hw).1
    -- a head with an event is alone, and `d` has none
    · have hle : d.opSeq ≤ (x.peers p).readySeq := by
        rcases hready d hmem with hle | ⟨h, hin, hevent, rfl | hput⟩
        · exact hle
        · rw [hev] at hevent
          cases hevent
        · have hg := (hr.origin p).genuine _ (hheads.published (hr.books p) h hin)
          rcases hg.event hevent with ht | ht <;> rw [hput] at ht <;> cases ht
      rw [UInt64.le_iff_toNat_le] at hle
      omega
  · refine hr.posts.append_idle fun v hv pre => ?_
    have := hnone v hv
    cases v with
    | handed p d call result => exact absurd trivial this
    | _ => trivial

theorem Reachable.ready (h : Reachable c InOrder r) : Ready c r.proxy.toCore r.log := by
  refine h.keeps (I := Ready c) (fun _ _ _ => ?_) fun x a y log ns hr hmove hg => ?_
  · exact ⟨fun _ => book_init, fun _ => origin_init, readied_init, justified_nil _⟩
  · exact ⟨hmove.books hr.books, hmove.origin hr.origin, hmove.readied hr hg, hmove.posts hr⟩

theorem Moves.counters_progress (h : Moves c a x y ns) (ha : ∃ ans, a = .progress ans) (q : Fin n) :
    (y.peers q).counters = (x.peers q).counters := by
  have hmove : ∀ {x y : Core n} {ns : List (Note n)}, Move c x a y ns → (y.peers q).counters = (x.peers q).counters := by
    obtain ⟨ans, rfl⟩ := ha
    intro x y ns hmove
    rcases hmove.counters_cases with ⟨p, e, f, f', he, -⟩ | ⟨p, k, seq, he, -⟩ | ⟨hcounters, -⟩
    · cases he
    · cases he
    · exact hcounters q
  induction h with
  | nil => rfl
  | one h => exact hmove h
  | cons _ h _ ih => exact ih.trans (hmove h)

theorem Move.readySeq_le (h : Move c x a y ns) (hr : Ready c x log)
    (hg : (∀ ans, a ≠ .progress ans) → ∃ s : Proxy n, s.toCore = x ∧ InOrder ⟨s, log⟩ a) (q : Fin n) :
    (x.peers q).readySeq ≤ (y.peers q).readySeq := by
  have lift : ∀ {p : Fin n} {peer : Peer}, (x.peers p).readySeq ≤ peer.readySeq →
      (x.peers q).readySeq ≤ ((x.setPeer p peer).peers q).readySeq := by
    intro p peer hle
    rw [Core.setPeer_peers]
    split_ifs with hq
    · exact hq ▸ hle
    · exact UInt64.le_refl _
  rcases h.counters_cases with ⟨p, e, f, f', rfl, hlock, hsubmit, hseal, hy, rfl⟩ | ⟨p, k, seq, rfl, hk, rfl, rfl⟩ |
    ⟨hcounters, -⟩
  · rw [hy]
    refine lift ?_
    have hsub := publish_submissions (number (x.peers p).opSeq e.descs) p none
    have hafter := ((hr.books p).publish hlock (fun d hd => submitAll_sequence hsubmit _ (mem_map_of_mem hd))
      hsub.1 hsub.2.1 hsub.2.2).count
    rw [published_append, hsub.1, length_append, ← (hr.books p).count] at hafter
    have hold := (hr.readied p).le
    rw [UInt64.le_iff_toNat_le]
    show _ ≤ (if e.stores then e.last (x.peers p).opSeq else (x.peers p).readySeq).toNat
    split_ifs
    · show _ ≤ ((x.peers p).publish c e).opSeq.toNat
      omega
    · exact le_rfl
  · refine lift ?_
    have hold := ((hr.readied p).below seq (mem_of_getElem? hk)).1
    exact hold.le
  · have hsame : (y.peers q).readySeq = (x.peers q).readySeq := congrArg (·.2.1) (hcounters q)
    rw [hsame]
    exact UInt64.le_refl _

/-- **Readiness in runs in order.** In every run in which no store to `readySeqsCpu` goes past a ready signal that has not
fired, a stream-ordered descriptor is handed to the network only after the ready signal of its operation has fired, and
no step takes the ready word of a peer back. -/
theorem rma_ready (h : Reachable c InOrder r) : Justified ReadyBefore r.log ∧
    ∀ a r', InOrder r a → step c r a = some r' → ∀ p, (r.proxy.peers p).readySeq ≤ (r'.proxy.peers p).readySeq := by
  refine ⟨h.ready.posts, fun a r' hok hstep p => ?_⟩
  obtain ⟨out, hact, rfl⟩ := map_eq_some_iff.1 hstep
  have hmoves := act_moves hact
  by_cases ha : ∃ ans, a = .progress ans
  · have hsame : (out.1.toCore.peers p).readySeq = (r.proxy.peers p).readySeq :=
      congrArg (·.2.1) (hmoves.counters_progress ha p)
    rw [hsame]
    exact UInt64.le_refl _
  · generalize out.1.toCore = y at hmoves
    generalize out.2 = ns at hmoves
    cases hmoves with
    | nil => exact UInt64.le_refl _
    | one hmove => exact hmove.readySeq_le h.ready (fun _ => ⟨r.proxy, rfl, hok⟩) p
    | cons hp => exact absurd hp ha

end Run

/-! ## A run in order, and one that is not -/

def checkInOrder (r : Run n) : Action n → Bool
  | .publish p =>
    match (r.proxy.peers p).lock with
    | .admitted e => !e.stores || !decide ((r.proxy.peers p).Passes (e.last (r.proxy.peers p).opSeq))
    | _ => true
  | .signal p k =>
    match (r.proxy.peers p).signals[k]? with
    | some seq => !decide ((r.proxy.peers p).Passes seq)
    | none => true
  | _ => true

theorem checkInOrder_sound {r : Run n} {a : Action n} (h : checkInOrder r a = true) : InOrder r a := by
  cases a with
  | publish p =>
    intro e f f' hlock hst _ _
    simpa [checkInOrder, hlock, hst] using h
  | signal p k =>
    intro seq hk
    simpa [checkInOrder, hk] using h
  | _ => trivial

def streamPut : ApiCall := .put ⟨0, 0, 8, 0, 0⟩ true 0 false

def streamPutDesc : Submission := (prepared 1 (putDesc ⟨0, 0, 8, 0, 0⟩ 0 false)).toSubmission

/-- Its signal fires, and it is handed to the network. -/
theorem rma_ready_put : ∃ r : Run 1, Reachable fourSlots InOrder r ∧
    .handed 0 streamPutDesc (.iput 0 0 8 (some (0, 0))) .success ∈ r.log ∧ Justified ReadyBefore r.log := by
  have hsome : ((exec (fun r a => if checkInOrder r a then step fourSlots r a else none) ⟨fourStart, []⟩
      ([.admitCall 0 streamPut 0, .publish 0, .signal 0 0] ++ replicate 7 (.progress fairAnswers))).map fun r =>
        decide (.handed 0 streamPutDesc (.iput 0 0 8 (some (0, 0))) .success ∈ r.log)) = some true := by decide +kernel
  obtain ⟨r, hr, he⟩ := map_eq_some_iff.1 hsome
  have hreach : Reachable fourSlots InOrder r := ⟨_, _, fourSlots_init, .of_checked (fun _ _ => checkInOrder_sound) hr⟩
  exact ⟨r, hreach, of_decide_eq_true he, (rma_ready hreach).1⟩

/-- A put without a stream is published after the stream-ordered one, whose signal has not fired. -/
theorem rma_ready_passed : ¬ ∀ r : Run 1, Reachable fourSlots (fun _ _ => True) r → Justified ReadyBefore r.log ∧
    ∀ a r', step fourSlots r a = some r' → ∀ p, (r.proxy.peers p).readySeq ≤ (r'.proxy.peers p).readySeq := by
  intro h
  have hsome : ((exec (step fourSlots) ⟨fourStart, []⟩
      ([.admitCall 0 streamPut 0, .publish 0, .admitCall 0 (.put ⟨8, 8, 8, 0, 0⟩ false 0 false) 0, .publish 0] ++
        replicate 7 (.progress fairAnswers))).map (·.log)) =
      some ([.published 0 streamPutDesc (some 1),
        .published 0 (prepared 2 (putDesc ⟨8, 8, 8, 0, 0⟩ 0 false)).toSubmission none] ++
        .handed 0 streamPutDesc (.iput 0 0 8 (some (0, 0))) .success :: [.consumed 0 streamPutDesc]) := by
    decide +kernel
  obtain ⟨r, hreach, hlog⟩ := exists_run hsome
  have hfired := ((h r hreach).1 _ _ _ hlog).2 1 mem_cons_self
  revert hfired
  decide +kernel

end FlagCX.Rma
