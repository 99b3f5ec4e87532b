import FlagCX.Lib.History
import FlagCX.Rma.Sound

/-!
# Signals after their data (`flagcxRmaProxyEnqueueReleaseGroup`, the release gate)

The release descriptor of a call carries its signal. `MembersDone` says that the data of its group has completed with
success; it holds whenever a release descriptor is handed to the network or completes with success (`Released`).
-/

namespace FlagCX.Rma
open List Option

open Net Lib

variable {n : Nat} {c : Config n}

/-- Every data descriptor of the group of `d` that was published has completed with success. -/
def MembersDone (log : List (Note n)) (d : Submission) : Prop :=
  ∀ q m awaits, .published q m awaits ∈ log → m.isData = true → m.releaseGroup = d.releaseGroup →
    ∃ tracked, .completed q m .success tracked ∈ log

/-- Every data descriptor of the group of `d` that was published has completed, with whatever final result. -/
def MembersSettled (log : List (Note n)) (d : Submission) : Prop :=
  ∀ q m awaits, .published q m awaits ∈ log → m.isData = true → m.releaseGroup = d.releaseGroup →
    ∃ result tracked, .completed q m result tracked ∈ log ∧ result ≠ .inProgress

/-- A release is handed to the network, or completes with success, after the data of its group, and no data descriptor is
published after the release of its group. -/
def ReleasedAfter (pre : List (Note n)) : Note n → Prop
  | .handed p d call _ => d.type = .release → call = .iputSignal 0 0 0 none d.signalOff d.signalValue ∧
    (∃ awaits, .published p d awaits ∈ pre) ∧ MembersDone pre d
  | .completed p d result _ => d.type = .release → result = .success →
    (∃ awaits, .published p d awaits ∈ pre) ∧ MembersDone pre d
  | .published _ m _ => m.isData = true → ∀ p d awaits, .published p d awaits ∈ pre → d.type = .release →
    d.releaseGroup ≠ m.releaseGroup
  | _ => True

theorem ApiCall.release_last (call : ApiCall) (group : Nat) (groupId : UInt64) {i : Nat} {d : Desc}
    (hi : (call.enqueue group groupId).descs[i]? = some d) (ht : d.type = .release) :
    (call.enqueue group groupId).descs.length = i + 1 := by
  have last : ∀ {data : List Desc} {release : Desc}, (∀ e ∈ data, e.type ≠ .release) → (data ++ [release])[i]? = some d →
      (data ++ [release]).length = i + 1 := by
    intro data release hdata hi
    have hlt := (List.getElem?_eq_some_iff.1 hi).1
    rw [length_append, length_singleton] at hlt ⊢
    by_contra hne
    rw [getElem?_append_left (by omega)] at hi
    exact hdata d (mem_of_getElem? hi) ht
  have one : ∀ {e : Desc}, ([e] : List Desc)[i]? = some d → ([e] : List Desc).length = i + 1 := by
    intro e hi
    have hlt := (List.getElem?_eq_some_iff.1 hi).1
    rw [length_singleton] at hlt ⊢
    omega
  cases call with
  | put | get | getIpc | putValue => exact one hi
  | batchPut xs =>
    obtain ⟨x, -, rfl⟩ := mem_map.1 (mem_of_getElem? hi)
    cases ht
  | putSignal x off value ready key independent =>
    refine last (fun e he => ?_) hi
    split_ifs at he
    · rw [mem_singleton.1 he]
      nofun
    · exact absurd he not_mem_nil
  | batchPutSignal xs off value key independent =>
    refine last (fun e he => ?_) hi
    obtain ⟨x, -, rfl⟩ := mem_map.1 he
    nofun

section Run
variable {x y : Core n} {a : Action n} {log ns : List (Note n)} {p : Fin n} {d : Submission}

variable {awaits : Option UInt64}

section

variable (h : Sound c x log) (hd : .published p d awaits ∈ log) (ht : d.type = .release)
include h hd ht

theorem Sound.members_done (hv : releaseVerdict x.fabric d.releaseGroup = ⟨.success, true, true⟩) : MembersDone log d := by
  have hgen := (h.origin p).genuine d (mem_published.2 ⟨awaits, hd⟩)
  obtain ⟨g, hg⟩ := ne_none_iff_exists'.1 (hgen.group ht)
  obtain ⟨r, hr⟩ := h.groups g (h.below p d awaits hd g hg)
  rw [hg] at hv
  have hverdict : releaseGroupTest (x.fabric.groups g) = ⟨.success, true, true⟩ := hv
  have hgate := hr.ledger.gate.test.2.1 (by rw [hverdict]; exact ⟨rfl, rfl⟩)
  intro q m aw hm hdata hgroup
  rw [hg] at hgroup
  have htracked : m.trackedGroup = some g := by rw [Submission.trackedGroup, if_pos hdata, hgroup]
  obtain ⟨k, hk, hb, hq, hst⟩ := hr.members q m aw hm htracked
  rcases hst with hpend | ⟨result, tracked, hres, hnote⟩
  · have hwaits := (hr.ledger.roster q m.sequence).1 ⟨k, hk, hb, hq, hpend⟩
    exact absurd hwaits (pendingOn_eq_zero.1 (Finset.sum_eq_zero_iff.1 hgate.2.1 q (Finset.mem_univ q)) m.sequence)
  · have hsuccess := hgate.2.2 k hk result hres
    subst hsuccess
    exact ⟨tracked, hnote⟩

theorem Sound.refused (hall : MembersSettled log d) (hfail : ¬ MembersDone log d) :
    (releaseVerdict x.fabric d.releaseGroup).done = true ∧ (releaseVerdict x.fabric d.releaseGroup).result ≠ .success := by
  have hgen := (h.origin p).genuine d (mem_published.2 ⟨awaits, hd⟩)
  obtain ⟨g, hg⟩ := ne_none_iff_exists'.1 (hgen.group ht)
  obtain ⟨r, hr⟩ := h.groups g (h.below p d awaits hd g hg)
  rw [hg]
  show (releaseGroupTest (x.fabric.groups g)).done = true ∧ (releaseGroupTest (x.fabric.groups g)).result ≠ .success
  -- no entry of the scoreboards waits for the group
  have hnone : ∀ q s, ¬ Waits g (x.fabric.boards q) s := by
    rintro q s ⟨j, hj, ⟨hp, hgroup⟩, -⟩
    obtain ⟨m, hm, -, hmg, hpend⟩ := (h.boards q).live j hj (by simp [CompletionScoreboard.Occupied, hp])
    obtain ⟨aw, hpub⟩ := mem_published.1 hm
    have htracked : m.trackedGroup = some g := hmg.symm.trans hgroup
    obtain ⟨result, tracked, hnote, hne⟩ := hall q m aw hpub (trackedGroup_data htracked)
      ((trackedGroup_eq htracked).trans hg.symm)
    exact hpend.1 hp ⟨result, tracked, mem_completions.2 hnote, hne⟩
  have hzero : ∑ q, pendingOn g (x.fabric.boards q) = 0 := Finset.sum_eq_zero fun q _ => pendingOn_eq_zero.2 (hnone q)
  have hstate := hr.ledger.gate.closed.2 ⟨hr.closed p d awaits hd ht hg, hzero⟩
  have hverdict : releaseGroupTest (x.fabric.groups g) =
      ⟨(x.fabric.groups g).firstError, true, (x.fabric.groups g).releaseAllowed⟩ := by
    unfold releaseGroupTest
    rw [if_neg hr.ledger.gate.ident, if_pos hstate]
  rw [hverdict]
  refine ⟨rfl, fun hfirst => hfail fun q m aw hm hdata hgroup => ?_⟩
  rw [hg] at hgroup
  have htracked : m.trackedGroup = some g := by rw [Submission.trackedGroup, if_pos hdata, hgroup]
  obtain ⟨k, hk, hb, hq, hst⟩ := hr.members q m aw hm htracked
  rcases hst with hpend | ⟨result, tracked, hres, hnote⟩
  · exact absurd ((hr.ledger.roster q m.sequence).1 ⟨k, hk, hb, hq, hpend⟩) (hnone q m.sequence)
  · have hsuccess := hr.ledger.gate.first.1 hfirst k hk result hres
    subst hsuccess
    exact ⟨tracked, hnote⟩

theorem Sound.members_append (hmove : Move c x a y ns) (hm : MembersDone log d) : MembersDone (log ++ ns) d := by
  intro q m aw hpub hdata hgroup
  rcases mem_append.1 hpub with hpub | hpub
  · obtain ⟨tracked, hnote⟩ := hm q m aw hpub hdata hgroup
    exact ⟨tracked, mem_append_left _ hnote⟩
  · rcases hmove.published_cases with ⟨p', e, f, -, hlock, -, rfl⟩ | hnone
    · obtain ⟨d', hd', heq⟩ := mem_map.1 hpub
      cases heq
      have hgen := (h.origin p).genuine d (mem_published.2 ⟨awaits, hd⟩)
      obtain ⟨g, hg⟩ := ne_none_iff_exists'.1 (hgen.group ht)
      have heg := h.prepared_group hlock d'.toSubmission (mem_map_of_mem hd')
      have hheld := h.held _ e g hlock (heg.symm.trans (hgroup.trans hg))
      exact absurd hg (hheld.unpublished p d awaits hd)
    · exact absurd ((mem_append_published hnone).1 (show _ ∈ [] ++ _ from hpub)) not_mem_nil

end

/-- In runs: what the log says of releases, and the data of a release in progress without an error is done. -/
structure Released (c : Config n) (x : Core n) (log : List (Note n)) : Prop where
  sound : Sound c x log
  order : Justified ReleasedAfter log
  gated : ∀ p, ∀ d ∈ (x.peers p).inProgress, d.type = .release → d.completionResult = .success →
    MembersDone log d.toSubmission

theorem Released.published (h : Released c x log) {d : Desc} (hd : d ∈ (x.peers p).inProgress) :
    ∃ awaits, .published p d.toSubmission awaits ∈ log :=
  mem_published.1 ((h.sound.books p).open_progress hd).1

/-- A request that was in progress, with no error less, or one taken from the ring past its gate. -/
def Continues (x : Core n) (log : List (Note n)) (q : Fin n) (d : Desc) : Prop :=
  (∃ e ∈ (x.peers q).inProgress, e.toSubmission = d.toSubmission ∧
    (d.completionResult = .success → e.completionResult = .success)) ∨
  d.toSubmission ∈ published (view q log) ∧ (d.type = .release → d.completionResult = .success →
    releaseVerdict x.fabric d.releaseGroup = ⟨.success, true, true⟩)

theorem continues_old {q : Fin n} {d : Desc} (hd : d ∈ (x.peers q).inProgress) : Continues x log q d := .inl ⟨d, hd, rfl, id⟩

theorem continues_setPeer {p q : Fin n} {peer : Peer} {d : Desc} (hd : d ∈ ((x.setPeer p peer).peers q).inProgress)
    (hall : ∀ e ∈ peer.inProgress, Continues x log p e) : Continues x log q d := by
  rw [Core.setPeer_peers] at hd
  split_ifs at hd with hq
  · rw [hq]
    exact hall d hd
  · exact continues_old hd

theorem marked_continues {p : Fin n} {ds : List Desc} (h : List.Forall₂ Marked (x.peers p).inProgress ds) :
    ∀ e ∈ ds, Continues x log p e := by
  intro e he
  obtain ⟨d, hd, hmarked⟩ := marked_source h he
  refine .inl ⟨d, hd, ?_, hmarked.success⟩
  rw [hmarked.same]

theorem Move.continues (h : Move c x a y ns) (hb : ∀ p, Book c (x.peers p) (view p log)) {q : Fin n} {d : Desc}
    (hd : d ∈ (y.peers q).inProgress) : Continues x log q d := by
  cases h with
  | admitCall | admitGroup | publish | unpublish | arm | signal | hand | openDomain | prune =>
    exact continues_setPeer hd fun e he => continues_old he
  | take p hds ds hheads hroom hcarried hflush hrelease =>
    refine continues_setPeer hd fun e he => ?_
    rcases mem_append.1 he with he | he
    · exact continues_old he
    · have hsub : e.toSubmission ∈ hds.map (·.toSubmission) := by
        rw [← carried_submissions hcarried]
        exact mem_map_of_mem he
      obtain ⟨h', hh', heq⟩ := mem_map.1 hsub
      refine .inr ⟨?_, hrelease e he⟩
      rw [← heq]
      exact hheads.published (hb p) h' hh'
  | takeTracked p h' request index getSequence domain hheads hroom hget =>
    refine continues_setPeer hd fun e he => ?_
    rcases mem_append.1 he with he | he
    · exact continues_old he
    · rw [mem_singleton.1 he]
      refine .inr ⟨hheads.published (hb p) h' (mem_singleton_self h'), fun ht => ?_⟩
      exact absurd (hget.symm.trans ht) nofun
  | retire p i e result =>
    obtain ⟨doneSeq, hpeers⟩ := x.retire_peers p i e.toSubmission result
    rw [hpeers] at hd
    exact continues_setPeer hd fun e he => continues_old (mem_of_mem_eraseIdx he)
  | settle p e result =>
    obtain ⟨doneSeq, hpeers⟩ := x.settle_peers p e.toSubmission result
    rw [hpeers] at hd
    exact continues_setPeer hd fun e he => continues_old he
  | dataDone p i e result hi hstage hseq hresult =>
    refine continues_setPeer hd fun e' he' => ?_
    rcases mem_or_eq_of_mem_set he' with he' | rfl
    · exact continues_old he'
    · refine .inl ⟨e, mem_of_getElem? hi, rfl, fun hs => ?_⟩
      rcases hresult with hr | hr
      · exact hr.symm.trans hs
      · exact absurd hs hr
  | domain p index ans pendingError =>
    exact continues_setPeer hd (marked_continues (walkDomain_walks (x.peers p) pendingError).1)
  | deliver => exact continues_old hd

theorem Sound.publish_after (h : Sound c x log) {e : Enqueue}
    (hlock : (x.peers p).lock = .admitted e) {pre post : List (Note n)} {v : Note n}
    (hcut : (number (x.peers p).opSeq e.descs).map (fun d => Note.published p d.toSubmission awaits) = pre ++ v :: post) :
    ReleasedAfter (log ++ pre) v := by
  obtain ⟨ds₁, ds₂, hds, hpre, htail⟩ := map_eq_append_iff.1 hcut
  obtain ⟨m, ds₃, rfl, rfl, -⟩ := map_eq_cons_iff.1 htail
  have hm : m ∈ number (x.peers p).opSeq e.descs := by
    rw [hds]
    exact mem_append_right _ mem_cons_self
  have hgroup := h.prepared_group hlock
  intro hdata q d aw hd ht hsame
  rcases mem_append.1 hd with hd | hd
  · -- the group of `d` would be that of the call
    have hgen := (h.origin q).genuine d (mem_published.2 ⟨aw, hd⟩)
    obtain ⟨g, hg⟩ := ne_none_iff_exists'.1 (hgen.group ht)
    have heg : e.group = some g := ((hgroup _ (mem_map_of_mem hm)).symm.trans hsame.symm).trans hg
    exact (h.held p e g hlock heg).unpublished q d aw hd hg
  · -- a release is the last of its call
    rw [← hpre] at hd
    obtain ⟨d', hd', heq⟩ := mem_map.1 hd
    cases heq
    obtain ⟨i, hi⟩ := getElem?_of_mem hd'
    have hlt := (List.getElem?_eq_some_iff.1 hi).1
    have hi' : (number (x.peers p).opSeq e.descs)[i]? = some d' := by
      rw [hds, getElem?_append_left hlt]
      exact hi
    have hlen : (number (x.peers p).opSeq e.descs).length = ds₁.length + (ds₃.length + 1) := by
      rw [hds, length_append, length_cons]
    rw [number_length] at hlen
    rw [number_getElem?, map_eq_some_iff] at hi'
    obtain ⟨d₀, hd₀, rfl⟩ := hi'
    obtain ⟨call, group, groupId, rfl, -⟩ := (h.origin p).lock e hlock
    have := call.release_last group groupId hd₀ ht
    omega

theorem Move.released (h : Move c x a y ns) (hr : Released c x log) : Released c y (log ++ ns) := by
  refine ⟨h.sound hr.sound, ?_, fun p d hd ht hs => ?_⟩
  · rcases h.published_cases with ⟨p, e, f, -, hlock, -, rfl⟩ | hpub
    · exact hr.order.append fun pre v post he => hr.sound.publish_after hlock he
    rcases h.handed_cases with ⟨p, ds, call, result, hheads, -, hrelease, hcall, rfl⟩ | hhand
    · refine hr.order.append fun pre v post he => ?_
      obtain ⟨ds₁, ds₂, rfl, rfl, htail⟩ := map_eq_append_iff.1 he
      obtain ⟨d, ds₃, rfl, rfl, -⟩ := map_eq_cons_iff.1 htail
      have hmem : d ∈ ds₁ ++ d :: ds₃ := mem_append_right _ mem_cons_self
      obtain ⟨awaits, hd⟩ := mem_published.1 (hheads.published (hr.sound.books p) d hmem)
      intro ht
      refine ⟨hcall d hmem ht, ⟨awaits, mem_append_left _ hd⟩, ?_⟩
      have hdone := hr.sound.members_done hd ht (hrelease d hmem ht)
      intro q m aw hm hdata hgroup
      rcases mem_append.1 hm with hm | hm
      · obtain ⟨tracked, hnote⟩ := hdone q m aw hm hdata hgroup
        exact ⟨tracked, mem_append_left _ hnote⟩
      · obtain ⟨d', -, hd'⟩ := mem_map.1 hm
        cases hd'
    -- the other notes that matter are completions
    have hother : ∀ v ∈ ns, completions [v] = [] → ∀ pre, ReleasedAfter pre v := by
      intro v hv hc pre
      have hp := filterMap_eq_nil_iff.1 hpub v hv
      have hh := hhand v hv
      cases v with
      | published => cases hp
      | handed => exact absurd trivial hh
      | completed => cases hc
      | _ => trivial
    rcases h.completed_cases with ⟨p, i, d, result, hi, hresult, -, rfl⟩ | ⟨p, d, result, hheads, hresult, rfl⟩ | hnone
    · refine hr.order.concat fun ht hs => ?_
      have hin := mem_of_getElem? hi
      refine ⟨hr.published hin, hr.gated p d hin ht ?_⟩
      rcases hresult with he | ⟨hne, -⟩
      · exact he.symm.trans hs
      · exact absurd hs hne
    · refine hr.order.append fun pre v post he => ?_
      cases pre with
      | nil =>
        obtain ⟨rfl, -⟩ := cons.inj he
        trivial
      | cons v' pre =>
        obtain ⟨-, he⟩ := cons.inj he
        have hv : v = .completed p d.toSubmission result (x.tracked p d.toSubmission result) := by
          cases pre with
          | nil => exact (cons.inj he).1.symm
          | cons w pre => simp at he
        subst hv
        intro ht hs
        rcases hresult with hne | hipc
        · exact absurd hs hne
        · exact absurd (hipc.symm.trans ht) nofun
    · refine hr.order.append_idle fun v hv pre => hother v hv ?_ pre
      exact filterMap_eq_nil_iff.2 fun w hw => filterMap_eq_nil_iff.1 hnone w (mem_singleton.1 hw ▸ hv)
  · rcases h.continues hr.sound.books hd with ⟨e, he, heq, hsucc⟩ | ⟨hpub, hv⟩
    · obtain ⟨awaits, hpub⟩ := hr.published he
      rw [heq] at hpub
      have hdone := hr.gated p e he (congrArg Submission.type heq |>.trans ht) (hsucc hs)
      rw [heq] at hdone
      exact hr.sound.members_append hpub ht h hdone
    · obtain ⟨awaits, hpub⟩ := mem_published.1 hpub
      exact hr.sound.members_append hpub ht h (hr.sound.members_done hpub ht (hv ht hs))

/-- **Releases in runs.** -/
theorem Reachable.released {ok : Run n → Action n → Prop} {r : Run n} (h : Reachable c ok r) :
    Released c r.proxy.toCore r.log :=
  h.keeps (I := Released c) (fun _ _ hboard => ⟨sound_init hboard, justified_nil _, fun _ _ hd => absurd hd not_mem_nil⟩)
    fun _ _ _ _ _ hr hmove _ => hmove.released hr

theorem ringEntry_refused {s : Proxy n} {sendComm : Bool} (hne : circularBufEmpty (s.peers p) = false)
    (hroom : (s.peers p).inFlight < c.queueSize) {e : Desc} (he : e = (s.peers p).slots (c.slot (s.peers p).ci))
    (ht : e.type = .release) (hdone : (releaseVerdict s.fabric e.releaseGroup).done = true)
    (hres : (releaseVerdict s.fabric e.releaseGroup).result ≠ .success) (ans : Answers) :
    ringEntry c s p sendComm ans = ({ take s p [{ e with
      completionResult := (releaseVerdict s.fabric e.releaseGroup).result }] with pc := .ring p sendComm },
      [.consumed p e.toSubmission]) := by
  unfold ringEntry
  rw [if_neg (by simpa [hne] using UInt32.not_le.2 hroom), ← he, if_pos ht, if_neg (by simp [hdone]), if_pos (.inl hres),
    if_neg hres]

/-- **Signals come after their data.** In every run, whatever the adaptors answer, a release whose data has failed is never
handed over, and the ring does not wait for it. -/
theorem rma_signal_after_data {ok : Run n → Action n → Prop} {r : Run n} (h : Reachable c ok r) :
    (∀ pre post p d call result, r.log = pre ++ .handed p d call result :: post → d.type = .release →
      call = .iputSignal 0 0 0 none d.signalOff d.signalValue ∧
      ∀ q m awaits, .published q m awaits ∈ r.log → m.isData = true → m.releaseGroup = d.releaseGroup →
        ∃ tracked, .completed q m .success tracked ∈ pre) ∧
    (∀ q m result tracked, .completed q m result tracked ∈ r.log → m.isData = true → result ≠ .success →
      ∀ p d, d.type = .release → d.releaseGroup = m.releaseGroup → (∀ call result', .handed p d call result' ∉ r.log) ∧
        ∀ result' tracked', .completed p d result' tracked' ∈ r.log → result' ≠ .success) ∧
    (∀ p sendComm e ans, r.proxy.pc = .ring p sendComm → circularBufEmpty (r.proxy.peers p) = false →
      (r.proxy.peers p).inFlight < c.queueSize → e = (r.proxy.peers p).slots (c.slot (r.proxy.peers p).ci) →
      e.type = .release → MembersSettled r.log e.toSubmission → ¬ MembersDone r.log e.toSubmission →
      ∃ refused, refused ≠ .success ∧ act c r.proxy (.progress ans) = some
        ({ take r.proxy p [{ e with completionResult := refused }] with pc := .ring p sendComm },
          [.consumed p e.toSubmission])) := by
  have hr := h.released
  -- what was published after the release is not in its group
  have members : ∀ {pre post : List (Note n)} {v : Note n} {p : Fin n} {d : Submission}, r.log = pre ++ v :: post →
      published [v] = [] → d.type = .release → (∃ awaits, .published p d awaits ∈ pre) → MembersDone pre d →
      ∀ q m awaits, .published q m awaits ∈ r.log → m.isData = true → m.releaseGroup = d.releaseGroup →
        ∃ tracked, .completed q m .success tracked ∈ pre := by
    intro pre post v p d hlog hv ht hpub hdone q m awaits hm hdata hgroup
    obtain ⟨aw, hpub⟩ := hpub
    rw [hlog] at hm
    rcases mem_append.1 hm with hm | hm
    · exact hdone q m awaits hm hdata hgroup
    · rcases mem_cons.1 hm with rfl | hm
      · cases hv
      · obtain ⟨mid, post', rfl⟩ := append_of_mem hm
        have hafter := hr.order (pre ++ v :: mid) (.published q m awaits) post' (by rw [hlog]; simp)
        exact absurd hgroup.symm (hafter hdata p d aw (mem_append_left _ hpub) ht)
  have unique : ∀ {q : Fin n} {m : Submission} {result tracked tracked' : Result}, .completed q m result tracked ∈ r.log →
      .completed q m .success tracked' ∈ r.log → result = .success := by
    intro q m result tracked tracked' h1 h2
    have hone := (hr.sound.books q).completed_once (mem_completions.2 h1) (mem_completions.2 h2) rfl
    exact congrArg (·.2.1) hone
  refine ⟨fun pre post p d call result hlog ht => ?_, fun q m result tracked hm hdata hne p d ht hgroup => ⟨?_, ?_⟩,
    fun p sendComm e ans hpc hempty hroom he ht hall hfail => ?_⟩
  · obtain ⟨hcall, hpub, hdone⟩ := hr.order pre _ post hlog ht
    exact ⟨hcall, members hlog rfl ht hpub hdone⟩
  · intro call result' hd
    obtain ⟨pre, post, hlog⟩ := append_of_mem hd
    obtain ⟨-, hpub, hdone⟩ := hr.order pre _ post hlog ht
    obtain ⟨awaits, hmp⟩ := mem_published.1 ((hr.sound.books q).completed_published (mem_completions.2 hm))
    obtain ⟨tracked', hs⟩ := members hlog rfl ht hpub hdone q m awaits hmp hdata hgroup.symm
    exact hne (unique hm (by rw [hlog]; exact mem_append_left _ hs))
  · rintro result' tracked' hd rfl
    obtain ⟨pre, post, hlog⟩ := append_of_mem hd
    obtain ⟨hpub, hdone⟩ := hr.order pre _ post hlog ht rfl
    obtain ⟨awaits, hmp⟩ := mem_published.1 ((hr.sound.books q).completed_published (mem_completions.2 hm))
    obtain ⟨tracked'', hs⟩ := members hlog rfl ht hpub hdone q m awaits hmp hdata hgroup.symm
    exact hne (unique hm (by rw [hlog]; exact mem_append_left _ hs))
  · have hheads := heads_single (c := c) hempty
    rw [← he] at hheads
    obtain ⟨awaits, hpub⟩ := mem_published.1 (hheads.published (hr.sound.books p) e (mem_singleton_self e))
    obtain ⟨hdone, hres⟩ := hr.sound.refused hpub ht hall hfail
    refine ⟨_, hres, ?_⟩
    show progress c r.proxy ans = _
    unfold progress
    rw [hpc]
    exact congrArg some (ringEntry_refused hempty hroom he ht hdone hres ans)

end Run

/-! ## A put with a signal -/

def signalPut : ApiCall := .putSignal ⟨0, 0, 8, 0, 0⟩ 16 5 false 0 false

def signalPutData : Submission := (prepared 1 (signalDataDesc 0 1 ⟨0, 0, 8, 0, 0⟩ 0 false)).toSubmission

def signalPutRelease : Submission := (prepared 2 (signalReleaseDesc 0 1 16 5 0 false)).toSubmission

/-- Its signal is handed to the network, and its data has completed before. -/
theorem rma_signal_after_data_put : ∃ (r : Run 1) (pre post : List (Note 1)),
    Reachable fourSlots (fun _ _ => True) r ∧
    r.log = pre ++ .handed 0 signalPutRelease (.iputSignal 0 0 0 none 16 5) .success :: post ∧
    ∃ tracked, .completed 0 signalPutData .success tracked ∈ pre := by
  have hsome : ((exec (step fourSlots) ⟨fourStart, []⟩
      ([.admitCall 0 signalPut 1, .publish 0] ++ replicate 16 (.progress fairAnswers))).map (·.log)) =
      some ([.published 0 signalPutData none, .published 0 signalPutRelease none,
        .handed 0 signalPutData (.iput 0 0 8 (some (0, 0))) .success, .consumed 0 signalPutData,
        .completed 0 signalPutData .success .success] ++
        .handed 0 signalPutRelease (.iputSignal 0 0 0 none 16 5) .success :: [.consumed 0 signalPutRelease]) := by
    decide +kernel
  obtain ⟨r, hreach, hlog⟩ := exists_run hsome
  have hmem : Note.published 0 signalPutData none ∈ r.log := by
    rw [hlog]
    exact mem_append_left _ mem_cons_self
  exact ⟨r, _, _, hreach, hlog, ((rma_signal_after_data hreach).1 _ _ _ _ _ _ hlog rfl).2 0 signalPutData none hmem rfl rfl⟩

end FlagCX.Rma
