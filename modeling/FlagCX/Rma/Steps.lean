import FlagCX.Rma.Moves
import Mathlib.Data.List.TakeWhile

/-!
# The steps of the RMA proxy are moves

For each function of the proxy, the moves that it makes on the core; `act_moves` puts them together.
-/

namespace FlagCX.Rma
open List Function Option

open Net
open KernelProxy (Domain CompletionStage)

variable {n : Nat} {c : Config n} {s s' : Proxy n} {p : Fin n} {ans : Answers}

/-! ## Completion -/

theorem flagged_core (P : Prop) [Decidable P] (s : Proxy n) : (if P then s.recordPendingError else s).toCore = s.toCore := by
  split_ifs <;> rfl

theorem publishScoreboard_core (s : Proxy n) (p : Fin n) (k : UInt64) : (publishScoreboard s p k).toCore =
    { s.toCore with
      peers := update s.peers p { s.peers p with
        doneSeq := if 0 < (s.fabric.boards p).nextSequence ∧
          (s.peers p).doneSeq < (s.fabric.boards p).nextSequence - 1 then (s.fabric.boards p).nextSequence - 1
          else (s.peers p).doneSeq }
      completionCount := s.completionCount + k } := by
  unfold publishScoreboard
  by_cases hn : 0 < (s.fabric.boards p).nextSequence
  · simp only [hn, if_true, true_and]
    split_ifs <;> rfl
  · simp only [hn, if_false, false_and]
    rw [update_eq_self]
    split_ifs <;> rfl

theorem completeDesc_core (s : Proxy n) (p : Fin n) (d : Submission) (result : Result) :
    (completeDesc s p d result).1.toCore = s.toCore.complete p d result := by
  unfold completeDesc
  rw [flagged_core, publishScoreboard_core, flagged_core]
  rfl

/-! ## Requests in progress -/

variable {d : Desc}

theorem pollEntry_moves {i : Nat} (hi : (s.peers p).inProgress[i]? = some d) (ans : Answers) :
    Moves c (.progress ans) s.toCore (pollEntry s p i d ans).1.toCore (pollEntry s p i d ans).2 := by
  unfold pollEntry
  by_cases hstage : d.completionStage = .flushPending
  · rw [if_pos hstage]
    exact .nil _
  dsimp only
  have hresult : (if (d.request && ans.test != .success) = true then ans.test else d.completionResult) =
      d.completionResult ∨ ((if (d.request && ans.test != .success) = true then ans.test else d.completionResult) ≠
        .success ∧ d.request = true) := by
    split_ifs with hfailed
    · rw [Bool.and_eq_true, bne_iff_ne] at hfailed
      exact .inr ⟨hfailed.2, hfailed.1⟩
    · exact .inl rfl
  generalize (if (d.request && ans.test != .success) = true then ans.test else d.completionResult) = result at hresult ⊢
  split_ifs with hwait hseq
  · exact .nil _
  · exact .one (.dataDone p i d result hi hstage hseq (hresult.imp_right And.left))
  · unfold retire
    rw [completeDesc_core]
    exact .one (.retire p i d result hi hresult (.inl (not_not.1 hseq)))

theorem visibleEntry_moves {i : Nat} (hi : (s.peers p).inProgress[i]? = some d) :
    Moves c (.progress ans) s.toCore (visibleEntry s p i d).1.toCore (visibleEntry s p i d).2 := by
  unfold visibleEntry
  cases hdom : d.getVisibilityDomain with
  | none => exact .nil _
  | some index =>
    dsimp only
    split_ifs with hwait
    · exact .nil _
    · push Not at hwait
      unfold retire
      rw [completeDesc_core]
      exact .one (.retire p i d _ hi (.inl rfl) (.inr ⟨index, hdom, hwait.1, hwait.2, rfl⟩))

variable {index : Nat}

theorem progressGetVisibilityDomain_moves (hindex : index ∈ (s.peers p).active) (ans : Answers) :
    Moves c (.progress ans) s.toCore (progressGetVisibilityDomain s p index ans).1.toCore (progressGetVisibilityDomain s p index ans).2 := by
  unfold progressGetVisibilityDomain
  dsimp only
  split_ifs with huse
  · exact .nil _
  · push Not at huse
    exact .one (.domain p index ans s.pendingError hindex (by simpa using huse.1))

/-! ## The ring -/

variable {peer : Peer}

theorem heads_single (h : circularBufEmpty peer = false) : Heads c peer [peer.slots (c.slot peer.ci)] := by
  have hlt : peer.ci < peer.pi := by
    rw [circularBufEmpty, decide_eq_false_iff_not] at h
    exact UInt32.not_le.1 h
  refine ⟨?_, fun k d hk => ?_⟩
  · rw [UInt32.toNat_sub_of_le _ _ (UInt32.le_of_lt hlt)]
    rw [UInt32.lt_iff_toNat_lt] at hlt
    rw [length_singleton]
    omega
  · cases k with
    | zero =>
      cases hk
      show peer.slots (c.slot (peer.ci + 0)) = _
      rw [UInt32.add_zero]
    | succ k => simp at hk

theorem settle_moves {result : Result} (hheads : Heads c (s.peers p) [d]) (hresult : result ≠ .success ∨ d.type = .ipcGet) :
    Moves c (.progress ans) s.toCore (settle s p d result).1.toCore (settle s p d result).2 := by
  unfold settle
  rw [completeDesc_core]
  exact .one (.settle p d result hheads hresult)

variable {ns : List (Note n)}

theorem drainEntry_moves (h : drainEntry c s p = some (s', ns)) : Moves c (.progress ans) s.toCore s'.toCore ns := by
  unfold drainEntry at h
  dsimp only at h
  split_ifs at h with hlock hempty
  · cases h
    exact .nil _
  · cases h
    exact settle_moves (heads_single (by simpa using hempty)) (.inl (by simp))


/-! ## Posting -/

@[simp] theorem Core.setPeer_self (x : Core n) (p : Fin n) (peer : Peer) : (x.setPeer p peer).peers p = peer :=
  update_self ..

@[simp] theorem Core.setPeer_setPeer (x : Core n) (p : Fin n) (a b : Peer) :
    (x.setPeer p a).setPeer p b = x.setPeer p b := by
  simp [Core.setPeer, update_idem]

@[simp] theorem Proxy.setPeer_core (s : Proxy n) (p : Fin n) (peer : Peer) :
    (s.setPeer p peer).toCore = s.toCore.setPeer p peer := rfl

theorem Core.setPeer_eq (x : Core n) (p : Fin n) : x.setPeer p (x.peers p) = x := by simp [Core.setPeer]

theorem getVisibilityDomain_cases {peer' : Peer} {key : UInt64}
    (h : getVisibilityDomain c peer p key = some (peer', index)) :
    (peer' = peer ∧ index ∈ peer.active ∧ (peer.domains index).orderingKey = key) ∨
    ∃ domain, index < c.queueSize.toNat ∧ (peer.domains index).inUse = false ∧ Domain.init p key = .ok domain ∧
      peer' = { peer with domains := update peer.domains index domain, active := peer.active ++ [index] } := by
  unfold getVisibilityDomain at h
  split at h
  · rename_i i hfind
    cases h
    have hkey := find?_some hfind
    rw [decide_eq_true_eq] at hkey
    exact .inl ⟨rfl, mem_of_find?_eq_some hfind, hkey.2⟩
  · split_ifs at h
    split at h
    · cases h
    · rename_i free hfree
      split at h
      · cases h
      · rename_i domain hinit
        cases h
        have huse := find?_some hfree
        have hmem := mem_of_find?_eq_some hfree
        exact .inr ⟨domain, mem_range.1 hmem, by simpa using huse, hinit, rfl⟩

variable {x : Core n}

theorem getVisibilityDomain_moves {peer' : Peer} {key : UInt64}
    (h : getVisibilityDomain c (x.peers p) p key = some (peer', index)) :
    Moves c (.progress ans) x (x.setPeer p peer') [] ∧ index ∈ peer'.active ∧ peer'.inFlight = (x.peers p).inFlight ∧
      (∀ ds, Heads c (x.peers p) ds → Heads c peer' ds) ∧ peer'.staging = (x.peers p).staging ∧
      (peer'.domains index).orderingKey = key := by
  rcases getVisibilityDomain_cases h with ⟨rfl, hmem, hkey⟩ | ⟨domain, hlt, huse, hinit, rfl⟩
  · refine ⟨?_, hmem, rfl, fun _ hh => hh, rfl, hkey⟩
    rw [Core.setPeer_eq]
    exact .nil x
  · refine ⟨.one (.openDomain p index key domain hlt huse hinit), mem_append_right _ (mem_singleton_self _), rfl,
      fun ds hh => ⟨hh.size, hh.at_⟩, rfl, ?_⟩
    show (update (x.peers p).domains index domain index).orderingKey = key
    rw [update_self]
    unfold Domain.init at hinit
    split_ifs at hinit
    cases hinit
    rfl

theorem Moves.trans {y z : Core n} {ns' : List (Note n)} (h : Moves c (.progress ans) x y ns)
    (h' : Moves c (.progress ans) y z ns') : Moves c (.progress ans) x z (ns ++ ns') := by
  induction h with
  | nil x => exact h'
  | one hm => exact .cons ⟨ans, rfl⟩ hm h'
  | cons _ hm _ ih =>
    rw [append_assoc]
    exact .cons ⟨ans, rfl⟩ hm (ih h')

theorem takeOne_move {h : Desc} (ans : Answers) (request : Bool) (result : Result) (hheads : Heads c (x.peers p) [h])
    (hroom : (x.peers p).inFlight.toNat + 1 ≤ c.queueSize.toNat) (hflush : h.needsFlush c → result ≠ .success)
    (hrelease : h.type = .release → result = .success → releaseVerdict x.fabric h.releaseGroup = ⟨.success, true, true⟩)
    (hstaging : h.type = .putValue → request = true → (x.peers p).staging = h.putValue) :
    Move c x (.progress ans) (x.setPeer p { x.peers p with
      ci := (x.peers p).ci + UInt32.ofNat 1
      inProgress := (x.peers p).inProgress ++ [{ h with request := request, completionResult := result }]
      inFlight := (x.peers p).inFlight + UInt32.ofNat 1 }) [.consumed p h.toSubmission] := by
  refine Move.take p [h] [{ h with request := request, completionResult := result }] hheads hroom (.cons rfl .nil) ?_ ?_ ?_
  all_goals
    intro e he
    rw [mem_singleton] at he
    subst he
  · exact hflush
  · exact hrelease
  · exact hstaging

theorem trackGetVisibility_cases (peer : Peer) (d : Desc) :
    (trackGetVisibility c peer p d = (.success, peer, d) ∧ ¬ d.needsFlush c) ∨
    (∃ result, result ≠ .success ∧ trackGetVisibility c peer p d = (result, peer, d)) ∨
    ∃ peer' index, getVisibilityDomain c peer p d.orderingKey = some (peer', index) ∧
      ((∃ result, result ≠ .success ∧ trackGetVisibility c peer p d = (result, peer', d)) ∨
        ∃ domain getSequence, d.type = .get ∧ (peer'.domains index).issue = .ok (domain, getSequence) ∧
          trackGetVisibility c peer p d = (.success,
            { peer' with domains := update peer'.domains index domain },
            { d with getSequence := getSequence, getVisibilityDomain := some index })) := by
  unfold trackGetVisibility
  split
  · rename_i hno
    refine .inl ⟨rfl, ?_⟩
    rintro ⟨ht, hs, hf⟩
    rcases hno with h | h | h
    · exact h ht
    · exact hs h
    · rw [hf] at h
      cases h
  rename_i hneeds
  push Not at hneeds
  split
  · exact .inr (.inl ⟨.internalError, by simp, rfl⟩)
  rename_i peer' index hdom
  refine .inr (.inr ⟨peer', index, hdom, ?_⟩)
  split
  · rename_i result hissue
    refine .inl ⟨result, ?_, rfl⟩
    unfold KernelProxy.Domain.issue at hissue
    split_ifs at hissue
    cases hissue
    simp
  · rename_i domain getSequence hissue
    exact .inr ⟨domain, getSequence, hneeds.1, hissue, rfl⟩

theorem takePosted_moves {request : Bool} (hheads : Heads c (s.peers p) [d])
    (hroom : (s.peers p).inFlight.toNat + 1 ≤ c.queueSize.toNat)
    (hrelease : d.type = .release → releaseVerdict s.fabric d.releaseGroup = ⟨.success, true, true⟩)
    (hstaging : d.type = .putValue → request = true → (s.peers p).staging = d.putValue) :
    Moves c (.progress ans) s.toCore (takePosted c s p d request).toCore [.consumed p d.toSubmission] := by
  unfold takePosted
  rcases trackGetVisibility_cases (c := c) (p := p) (s.peers p) { d with request := request, completionResult := .success }
    with ⟨he, hno⟩ | ⟨result, hr, he⟩ | ⟨peer', index, hdom, hcase⟩
  · rw [he]
    have hone := takeOne_move ans request .success hheads hroom (fun hn => absurd hn hno) (fun ht _ => hrelease ht) hstaging
    simpa [Rma.take, Core.setPeer_eq] using Moves.one hone
  · rw [he]
    have hone := takeOne_move ans request result hheads hroom (fun _ => hr) (fun ht _ => hrelease ht) hstaging
    simpa [Rma.take, hr, Proxy.recordPendingError] using Moves.one hone
  obtain ⟨hmoves, hact, hfl, hhd, hst, hkey⟩ := getVisibilityDomain_moves hdom
  have hpeer : (s.toCore.setPeer p peer').peers p = peer' := Core.setPeer_self ..
  rcases hcase with ⟨result, hr, he⟩ | ⟨domain, getSequence, htype, hissue, he⟩
  · rw [he]
    have hone := takeOne_move (x := s.toCore.setPeer p peer') ans request result (by rw [hpeer]; exact hhd _ hheads)
      (by rw [hpeer, hfl]; exact hroom) (fun _ => hr) (fun ht _ => hrelease ht) (by rw [hpeer, hst]; exact hstaging)
    simpa [Rma.take, hr, Proxy.recordPendingError] using hmoves.trans (.one hone)
  · rw [he]
    have hone : Move c (s.toCore.setPeer p peer') (.progress ans) _ _ := Move.takeTracked p d request index getSequence domain
      (by rw [hpeer]; exact hhd _ hheads) (by rw [hpeer, hfl]; exact hroom) htype (by rw [hpeer]; exact hact)
      (by rw [hpeer]; exact hissue) (by rw [hpeer]; exact hkey)
    simpa [Rma.take] using hmoves.trans (.one hone)

theorem netCall_release {d : Submission} {b : Bool} {call : NetCall} (h : d.netCall b = .ok call) (ht : d.type = .release) :
    call = .iputSignal 0 0 0 none d.signalOff d.signalValue := by
  unfold Submission.netCall at h
  rw [ht] at h
  cases h
  rfl

theorem netCall_error {d : Submission} {b : Bool} {result : Result} (h : d.netCall b = .error result) :
    result = .internalError := by
  unfold Submission.netCall at h
  split at h
  · cases h
  · cases h
  · cases h
  · cases h
  · cases h
    rfl
  · split_ifs at h
    cases h
    rfl

theorem postOp_cases (s : Proxy n) (p : Fin n) (d : Desc) (ans : Answers) :
    postOp c s p d ans = (s, .internalError, false, []) ∨
    ∃ call staging, d.netCall c.hasStaging = .ok call ∧
      ((staging = (s.peers p).staging ∧ d.type ≠ .putValue) ∨ (d.type = .putValue ∧ staging = d.putValue)) ∧
      postOp c s p d ans = (s.setPeer p { s.peers p with staging := staging }, ans.post, ans.request,
        [.handed p d.toSubmission call ans.post]) := by
  unfold postOp
  cases hcall : d.netCall c.hasStaging with
  | error result =>
    rw [netCall_error hcall]
    exact .inl rfl
  | ok call =>
    refine .inr ⟨call, _, rfl, ?_, rfl⟩
    by_cases ht : d.type = .putValue
    · exact .inr ⟨ht, if_pos ht⟩
    · exact .inl ⟨if_neg ht, ht⟩

/-- The head of the ring may be posted: it is ready, and a release is allowed by its group. -/
structure Postable (c : Config n) (s : Proxy n) (p : Fin n) (d : Desc) : Prop where
  heads : Heads c (s.peers p) [d]
  room : (s.peers p).inFlight < c.queueSize
  ready : d.streamEvent = true ∨ d.opSeq ≤ (s.peers p).readySeq
  release : d.type = .release → releaseVerdict s.fabric d.releaseGroup = ⟨.success, true, true⟩

theorem Postable.room_succ (h : Postable c s p d) :
    (s.peers p).inFlight.toNat + 1 ≤ c.queueSize.toNat := UInt32.lt_iff_toNat_lt.1 h.room

theorem postOne_moves (h : Postable c s p d) (ans : Answers) (sendComm : Bool) :
    Moves c (.progress ans) s.toCore (postOne c s p d ans sendComm).1.toCore (postOne c s p d ans sendComm).2 := by
  rcases postOp_cases (c := c) s p d ans with hno | ⟨call, staging, hcall, hstaging, hyes⟩
  · -- nothing is handed out
    unfold postOne
    rw [hno]
    have hone := takeOne_move ans false .internalError h.heads h.room_succ (by simp) (by simp) (by simp)
    simpa [Rma.take, Proxy.recordPendingError] using Moves.one hone
  have hhand : Move c s.toCore (.progress ans) (s.toCore.setPeer p { s.peers p with staging := staging })
      [.handed p d.toSubmission call ans.post] := by
    refine Move.hand p [d] (fun _ => call) ans.post staging h.heads ?_ ?_ ?_ ?_
    · intro e he
      rw [mem_singleton] at he
      subst he
      rcases h.ready with hev | hle
      · exact .inr ⟨e, mem_singleton_self e, hev, .inl rfl⟩
      · exact .inl hle
    · intro e he
      rw [mem_singleton] at he
      subst he
      exact h.release
    · rcases hstaging with ⟨hs, ht⟩ | ⟨ht, hs⟩
      · refine .inl ⟨hs, fun e he => ?_⟩
        rw [mem_singleton] at he
        subst he
        exact ht
      · exact .inr ⟨d, rfl, ht, hs⟩
    · intro e he ht
      rw [mem_singleton] at he
      subst he
      exact netCall_release hcall ht
  have hpeer : (s.toCore.setPeer p { s.peers p with staging := staging }).peers p =
      { s.peers p with staging := staging } := Core.setPeer_self ..
  have hheads : Heads c ((s.toCore.setPeer p { s.peers p with staging := staging }).peers p) [d] := by
    rw [hpeer]
    exact ⟨h.heads.size, h.heads.at_⟩
  -- the proxy after the post
  generalize hs₁ : s.setPeer p { s.peers p with staging := staging } = s₁ at hyes
  have hcore : s₁.toCore = s.toCore.setPeer p { s.peers p with staging := staging } := by rw [← hs₁]; rfl
  rw [← hcore] at hhand hpeer hheads
  have hroom : (s₁.peers p).inFlight.toNat + 1 ≤ c.queueSize.toNat := by
    rw [hpeer]
    exact h.room_succ
  unfold postOne
  rw [hyes]
  by_cases hretry : ans.post = .inProgress
  · rw [if_pos hretry]
    exact .one hhand
  rw [if_neg hretry]
  by_cases hfatal : ans.post ≠ .success
  · rw [if_pos hfatal]
    have hone := takeOne_move ans false ans.post hheads hroom (fun _ => hfatal) (fun _ hr => absurd hr hfatal) (by simp)
    exact Moves.trans (.one hhand) (by simpa [Rma.take, Proxy.recordPendingError] using Moves.one hone)
  · rw [if_neg hfatal]
    refine Moves.trans (.one hhand) (takePosted_moves hheads hroom ?_ ?_)
    · rw [hcore]
      exact h.release
    · intro ht _
      rw [hpeer]
      rcases hstaging with ⟨-, hne⟩ | ⟨-, hst⟩
      · exact absurd ht hne
      · exact hst

/-! ## Batches -/

theorem carried_mapIdx (l : List Desc) (requests : Nat → Bool) (result : Result) :
    List.Forall₂ Carried l (l.mapIdx fun i d => { d with request := requests i, completionResult := result }) := by
  induction l generalizing requests with
  | nil => exact .nil
  | cons d l ih =>
    rw [mapIdx_cons]
    exact .cons rfl (ih fun i => requests (i + 1))

variable {ds : List Desc}

theorem Heads.initial (h : Heads c peer ds) (k : Nat) : Heads c peer (ds.take k) := by
  refine ⟨(length_take_le' k ds).trans h.size, fun i d hi => h.at_ i d ?_⟩
  rw [getElem?_take] at hi
  split_ifs at hi
  exact hi

theorem collectBatch_spec (peer : Peer) (head : Desc) (readySeq : UInt64) :
    Heads c peer (collectBatch c peer head readySeq) ∧
      (collectBatch c peer head readySeq).length ≤ (c.queueSize - peer.inFlight).toNat ∧
      ∀ d ∈ collectBatch c peer head readySeq, joins head d readySeq = true := by
  unfold collectBatch
  dsimp only
  generalize hlimit : min (min (peer.pi - peer.ci).toNat (c.queueSize - peer.inFlight).toNat) c.clampedBatchMax = limit
  generalize hall : (range limit).map (fun k => peer.slots (c.slot (peer.ci + UInt32.ofNat k))) = all
  have hpre := takeWhile_prefix (l := all) (joins head · readySeq)
  have hlen : (all.takeWhile (joins head · readySeq)).length ≤ limit := by
    have h1 := hpre.length_le
    have h2 : all.length = limit := by rw [← hall, length_map, length_range]
    omega
  refine ⟨⟨by omega, fun k d hk => ?_⟩, by omega, fun d hd => ?_⟩
  swap
  · exact mem_takeWhile_imp (p := fun x => joins head x readySeq) hd
  have hk' : all[k]? = some d := by
    obtain ⟨t, ht⟩ := hpre
    rw [← ht, getElem?_append_left (List.getElem?_eq_some_iff.1 hk).1]
    exact hk
  rw [← hall, getElem?_map, map_eq_some_iff] at hk'
  obtain ⟨i, hi, rfl⟩ := hk'
  have := List.getElem?_eq_some_iff.1 hi
  obtain ⟨hlt, he⟩ := this
  rw [getElem_range] at he
  rw [← he]
  rfl

variable {head : Desc} {readySeq : UInt64}

theorem joins_put (h : joins head d readySeq = true) : d.type = .put := by
  simp only [joins, Bool.and_eq_true, decide_eq_true_eq] at h
  exact h.1.1.1.1.1.2

theorem joins_ready (h : joins head d readySeq = true) : d.opSeq ≤ readySeq := by
  simp only [joins, Bool.and_eq_true, decide_eq_true_eq] at h
  exact h.1.1.1.1.1.1

theorem postBatch_moves {descs : List Desc} (hheads : Heads c (s.peers p) descs)
    (hroom : (s.peers p).inFlight.toNat + descs.length ≤ c.queueSize.toNat)
    (hjoins : ∀ d ∈ descs, joins head d readySeq = true)
    (hready : readySeq = (s.peers p).readySeq ∨ (head ∈ descs ∧ head.streamEvent = true ∧ head.type = .put))
    (ans : Answers) (sendComm : Bool) :
    Moves c (.progress ans) s.toCore (postBatch s p descs ans sendComm).1.toCore (postBatch s p descs ans sendComm).2 := by
  have hput : ∀ d ∈ descs, d.type = .put := fun d hd => joins_put (hjoins d hd)
  have hle : ∀ d ∈ descs, d.opSeq ≤ readySeq := fun d hd => joins_ready (hjoins d hd)
  unfold postBatch
  dsimp only
  generalize (if 0 ≤ ans.posted ∧ ans.posted ≤ (descs.length : Int) then ans.posted.toNat else 0) = posted
  generalize (if 0 ≤ ans.posted ∧ ans.posted ≤ (descs.length : Int) then ans.batchPost else Result.internalError) = result
  have hhand : Move c s.toCore (.progress ans) _ _ := Move.hand p descs
    (fun d => .iput d.srcOff d.dstOff d.size (some (d.srcMrIdx, d.dstMrIdx))) result (s.peers p).staging hheads
    (fun d hd => by
      rcases hready with hr | ⟨hmem, hev, ht⟩
      · rw [hr] at hle
        exact .inl (hle d hd)
      · exact .inr ⟨head, hmem, hev, .inr ht⟩)
    (fun d hd ht => by rw [hput d hd] at ht; cases ht) (.inl ⟨rfl, fun d hd ht => by rw [hput d hd] at ht; cases ht⟩)
    (fun d hd ht => by rw [hput d hd] at ht; cases ht)
  rw [Core.setPeer_eq s.toCore p] at hhand
  -- what is taken after the post
  have htake : ∀ accepted, accepted = (descs.take posted).mapIdx (fun i d =>
        ({ d with request := ans.requests i, completionResult := .success } : Desc)) →
      Move c s.toCore (.progress ans) (Rma.take s p accepted).toCore (accepted.map fun d => .consumed p d.toSubmission) := by
    rintro accepted rfl
    have hcarried := carried_mapIdx (descs.take posted) ans.requests .success
    have htype : ∀ d ∈ (descs.take posted).mapIdx (fun i d =>
        ({ d with request := ans.requests i, completionResult := .success } : Desc)), d.type = .put := by
      intro d hd
      obtain ⟨i, hi, rfl⟩ := mem_mapIdx.1 hd
      exact hput ((descs.take posted)[i]) (mem_of_mem_take (getElem_mem hi))
    refine Move.take p (descs.take posted) _ (hheads.initial posted) ?_ hcarried ?_ ?_ ?_
    · rw [length_mapIdx]
      have := length_take_le' posted descs
      omega
    · intro d hd hn
      have ht := htype d hd
      rw [hn.1] at ht
      cases ht
    · intro d hd ht
      rw [htype d hd] at ht
      cases ht
    · intro d hd ht
      rw [htype d hd] at ht
      cases ht
  split_ifs with hposted
  · exact .one hhand
  · exact .trans (.one hhand) (.one (htake _ rfl))
  · exact .trans (.one hhand) (.one (htake _ rfl))

/-! ## The head of the ring -/

theorem submitHead_moves (hheads : Heads c (s.peers p) [d]) (hroom : (s.peers p).inFlight < c.queueSize)
    (hrelease : d.type = .release → releaseVerdict s.fabric d.releaseGroup = ⟨.success, true, true⟩) (sendComm : Bool)
    (ans : Answers) :
    Moves c (.progress ans) s.toCore (submitHead c s p sendComm d ans).1.toCore (submitHead c s p sendComm d ans).2 := by
  unfold submitHead
  dsimp only
  generalize hr : (if d.streamEvent = true then uint64Max else (s.peers p).readySeq) = readySeq
  split_ifs with hwait hcomm hbatch
  · exact .nil _
  · exact .nil _
  · obtain ⟨hh, hlen, hj⟩ := collectBatch_spec (c := c) (s.peers p) d readySeq
    have hfit : (s.peers p).inFlight.toNat + (collectBatch c (s.peers p) d readySeq).length ≤ c.queueSize.toNat := by
      rw [UInt32.toNat_sub_of_le _ _ (UInt32.le_of_lt hroom)] at hlen
      omega
    refine postBatch_moves hh hfit hj ?_ ans sendComm
    by_cases hev : d.streamEvent = true
    · refine .inr ⟨?_, hev, hbatch.1⟩
      -- the batch is not empty, and its first member is the head of the ring
      have hne := hbatch.2.2
      cases hds : collectBatch c (s.peers p) d readySeq with
      | nil => rw [hds] at hne; exact absurd hne (by simp)
      | cons e es =>
        have h0 := hh.at_ 0 e (by rw [hds]; rfl)
        have h1 := hheads.at_ 0 d rfl
        rw [← h0, h1]
        exact mem_cons_self
    · exact .inl (by rw [← hr, if_neg hev])
  · refine postOne_moves ⟨hheads, hroom, ?_, hrelease⟩ ans sendComm
    by_cases hev : d.streamEvent = true
    · exact .inl hev
    · rw [if_neg hev] at hr
      rw [hr]
      exact .inr (UInt64.not_lt.1 hwait)

theorem eventGate_moves (hheads : Heads c (s.peers p) [d]) (hroom : (s.peers p).inFlight < c.queueSize)
    (hrelease : d.type = .release → releaseVerdict s.fabric d.releaseGroup = ⟨.success, true, true⟩) (sendComm : Bool)
    (ans : Answers) :
    Moves c (.progress ans) s.toCore (eventGate c s p sendComm d ans).1.toCore (eventGate c s p sendComm d ans).2 := by
  unfold eventGate
  dsimp only
  generalize (if d.ipcStatus = .success then ans.event else d.ipcStatus) = eventResult
  split_ifs with hev harmed hwait htype hprev hfailed hfailed
  · exact submitHead_moves hheads hroom hrelease sendComm ans
  · exact .nil _
  · exact .nil _
  · exact .nil _
  · exact settle_moves hheads (.inr htype)
  · exact settle_moves hheads (.inr htype)
  · exact settle_moves hheads (.inl hfailed)
  · exact submitHead_moves hheads hroom hrelease sendComm ans

theorem ringEntry_moves (sendComm : Bool) (ans : Answers) :
    Moves c (.progress ans) s.toCore (ringEntry c s p sendComm ans).1.toCore (ringEntry c s p sendComm ans).2 := by
  unfold ringEntry
  by_cases hstop : circularBufEmpty (s.peers p) = true ∨ c.queueSize ≤ (s.peers p).inFlight
  · rw [if_pos hstop]
    exact .nil _
  rw [if_neg hstop]
  push Not at hstop
  have hheads := heads_single (c := c) (by simpa using hstop.1)
  have hroom : (s.peers p).inFlight < c.queueSize := UInt32.not_le.1 hstop.2
  generalize hd : (s.peers p).slots (c.slot (s.peers p).ci) = d at hheads ⊢
  by_cases ht : d.type = .release
  · rw [if_pos ht]
    by_cases hdone : (!(releaseVerdict s.fabric d.releaseGroup).done) = true
    · rw [if_pos hdone]
      exact .nil _
    rw [if_neg hdone]
    by_cases hverdict : (releaseVerdict s.fabric d.releaseGroup).result ≠ .success ∨
        (!(releaseVerdict s.fabric d.releaseGroup).releaseAllowed) = true
    · rw [if_pos hverdict]
      -- the group refuses the release
      have hres : (if (releaseVerdict s.fabric d.releaseGroup).result = .success then Result.internalError
          else (releaseVerdict s.fabric d.releaseGroup).result) ≠ .success := by
        by_cases h : (releaseVerdict s.fabric d.releaseGroup).result = .success
        · rw [if_pos h]
          simp
        · rw [if_neg h]
          exact h
      exact .one (takeOne_move ans d.request _ hheads (UInt32.lt_iff_toNat_lt.1 hroom) (fun _ => hres)
        (fun _ hs => absurd hs hres) (fun hp => by rw [ht] at hp; cases hp))
    · rw [if_neg hverdict]
      refine eventGate_moves hheads hroom (fun _ => ?_) sendComm ans
      push Not at hverdict
      cases hv : releaseVerdict s.fabric d.releaseGroup with
      | mk result done allowed => simp_all
  · rw [if_neg ht]
    exact eventGate_moves hheads hroom (fun h => absurd h ht) sendComm ans

/-! ## Producers -/

@[simp] theorem number_length (base : UInt64) (ds : List Desc) : (number base ds).length = ds.length := by
  induction ds generalizing base with
  | nil => rfl
  | cons d ds ih => rw [number, length_cons, ih, length_cons]

theorem add_ofNat_succ (base : UInt64) (k : Nat) : base + 1 + UInt64.ofNat k = base + UInt64.ofNat (k + 1) := by
  rw [UInt64.ofNat_add, UInt64.add_assoc, UInt64.add_comm 1]
  rfl

/-- The core after `k` descriptors were prepared. -/
def Core.advanced (x : Core n) (p : Fin n) (k : Nat) (f : Fabric (Fin n)) : Core n :=
  { x.setPeer p { x.peers p with opSeq := (x.peers p).opSeq + UInt64.ofNat k } with fabric := f }

theorem Core.advanced_zero (x : Core n) (p : Fin n) : x.advanced p 0 x.fabric = x := by
  have h : (x.peers p).opSeq + UInt64.ofNat 0 = (x.peers p).opSeq := UInt64.add_zero _
  rw [Core.advanced, h]
  exact Core.setPeer_eq x p

@[simp] theorem Core.advanced_self (x : Core n) (p : Fin n) (k : Nat) (f : Fabric (Fin n)) :
    (x.advanced p k f).peers p = { x.peers p with opSeq := (x.peers p).opSeq + UInt64.ofNat k } := Core.setPeer_self ..

theorem Core.advanced_advanced (x : Core n) (p : Fin n) (k : Nat) (f g : Fabric (Fin n)) :
    (x.advanced p 1 f).advanced p k g = x.advanced p (k + 1) g := by
  have h : (x.peers p).opSeq + UInt64.ofNat 1 + UInt64.ofNat k = (x.peers p).opSeq + UInt64.ofNat (k + 1) :=
    add_ofNat_succ ..
  unfold Core.advanced
  rw [← h]
  simp [Core.setPeer]

theorem prepareDesc_cases (s : Proxy n) (p : Fin n) (d d' : Desc) (hd : d' = prepared ((s.peers p).opSeq + 1) d)
    (out : Result × Fabric (Fin n)) (hout : out = s.fabric.call (.submit p d'.submitContext d'.trackedGroup)) :
    ∃ s', prepareDesc s p d = (out.1, s', d') ∧
      (out.1 = .success → s'.toCore = s.toCore.advanced p 1 out.2) ∧ (out.1 ≠ .success → s'.toCore = s.toCore) := by
  subst hd hout
  unfold prepareDesc
  dsimp only
  split_ifs with h
  · exact ⟨_, by rw [h], fun _ => rfl, fun hn => absurd h hn⟩
  · refine ⟨_, rfl, fun hs => absurd hs h, fun _ => ?_⟩
    rw [call_failed h]

theorem prepareDescs_core (ds : List Desc) (s : Proxy n) (p : Fin n) :
    ∃ k f, (prepareDescs p s ds).2.2 = (number (s.peers p).opSeq ds).take k ∧ k ≤ ds.length ∧
      submitAll p s.fabric (((number (s.peers p).opSeq ds).map (·.toSubmission)).take k) = some f ∧
      (prepareDescs p s ds).2.1.toCore = s.toCore.advanced p k f ∧
      ((prepareDescs p s ds).1 = .success ↔ k = ds.length) := by
  induction ds generalizing s with
  | nil => exact ⟨0, s.fabric, rfl, le_rfl, rfl, (Core.advanced_zero ..).symm, ⟨fun _ => rfl, fun _ => rfl⟩⟩
  | cons d ds ih =>
    obtain ⟨s₁, hone, hyes, hno⟩ := prepareDesc_cases s p d _ rfl _ rfl
    unfold prepareDescs
    rw [hone]
    dsimp only
    by_cases hres : (s.fabric.call (.submit p (prepared ((s.peers p).opSeq + 1) d).submitContext
        (prepared ((s.peers p).opSeq + 1) d).trackedGroup)).1 = .success
    · rw [if_pos hres]
      have hcore := hyes hres
      obtain ⟨k, f, hout, hk, hsub, hc, hall⟩ := ih s₁
      have hseq : (s₁.peers p).opSeq = (s.peers p).opSeq + 1 := by
        rw [congrArg Core.peers hcore]
        exact congrArg Peer.opSeq (Core.advanced_self ..)
      rw [hseq] at hout hsub
      rw [congrArg Core.fabric hcore] at hsub
      refine ⟨k + 1, f, ?_, Nat.succ_le_succ hk, ?_, ?_, ?_⟩
      · rw [hout, number, take_succ_cons]
      · rw [number, map_cons, take_succ_cons, submitAll, if_pos hres]
        exact hsub
      · rw [hc, hcore, Core.advanced_advanced]
      · rw [length_cons, Nat.succ_inj]
        exact hall
    · rw [if_neg hres]
      refine ⟨0, s.fabric, rfl, Nat.zero_le _, rfl, ?_, ⟨fun h => absurd h hres, fun h => by simp at h⟩⟩
      rw [hno hres, Core.advanced_zero]

theorem rollback_core (ds : List Desc) (s : Proxy n) (p : Fin n) :
    (rollback p s ds).2.toCore =
      { s.toCore.setPeer p { s.peers p with opSeq := (s.peers p).opSeq - UInt64.ofNat ds.length } with
        fabric := cancelAll p s.fabric (ds.map (·.toSubmission)) } := by
  induction ds with
  | nil =>
    have h : (s.peers p).opSeq - UInt64.ofNat ([] : List Desc).length = (s.peers p).opSeq := UInt64.sub_zero _
    rw [h]
    exact (Core.setPeer_eq s.toCore p).symm
  | cons d ds ih =>
    have hpeer : (rollback p s ds).2.peers p =
        { s.peers p with opSeq := (s.peers p).opSeq - UInt64.ofNat ds.length } := by
      rw [congrArg Core.peers ih]
      exact Core.setPeer_self ..
    have hseq : (s.peers p).opSeq - UInt64.ofNat ds.length - 1 = (s.peers p).opSeq - UInt64.ofNat (d :: ds).length := by
      rw [length_cons, UInt64.ofNat_add]
      grind
    unfold rollback
    rw [Proxy.setPeer_core, hpeer, hseq]
    simp only [ih, Core.setPeer, update_idem]
    rfl

variable {f : Fabric (Fin n)}

theorem rollback_advanced {k : Nat} (hs : s.toCore = x.advanced p k f)
    (hlen : ds.length = k) (f' : Fabric (Fin n)) (hf : s'.toCore = { s.toCore with fabric := f' }) :
    (unlock (rollback p s' ds).2 p).toCore =
      { x.setPeer p { x.peers p with lock := .free } with fabric := cancelAll p f' (ds.map (·.toSubmission)) } := by
  have hcore : s'.toCore = x.advanced p k f' := by rw [hf, hs]; rfl
  have hroll := rollback_core ds s' p
  have hpeer : s'.peers p = { x.peers p with opSeq := (x.peers p).opSeq + UInt64.ofNat k } := by
    rw [congrArg Core.peers hcore]
    exact Core.advanced_self ..
  rw [hpeer, hlen] at hroll
  have hback : (x.peers p).opSeq + UInt64.ofNat k - UInt64.ofNat k = (x.peers p).opSeq := UInt64.add_sub_cancel ..
  rw [hback, congrArg Core.fabric hcore] at hroll
  have hp2 : (rollback p s' ds).2.peers p = x.peers p := by
    rw [congrArg Core.peers hroll]
    exact Core.setPeer_self ..
  unfold unlock
  rw [Proxy.setPeer_core, hp2, hroll, hcore]
  simp [Core.setPeer, Core.advanced]

theorem number_getLast {base : UInt64} (hne : ds ≠ []) :
    (number base ds).getLast?.map (·.opSeq) = some (base + UInt64.ofNat ds.length) := by
  induction ds generalizing base with
  | nil => exact absurd rfl hne
  | cons d ds ih =>
    rw [number]
    cases ds with
    | nil => rfl
    | cons e es =>
      have h : (number (base + 1) (e :: es)).getLast?.map (·.opSeq) = _ := ih (by simp)
      rw [add_ofNat_succ] at h
      exact h

variable {e : Enqueue} {s₁ : Proxy n} {signal : Option UInt64}

theorem store_core {ready : Option UInt64} {lock : Lock} (hs : s₁.toCore = x.advanced p e.descs.length f)
    (hds : ds = number (x.peers p).opSeq e.descs)
    (hready : ready = if e.stores then some (e.last (x.peers p).opSeq) else none)
    (hsignal : signal = if e.signals then some (e.last (x.peers p).opSeq) else none)
    (hlock : lock = if e.isIpc then .arming (x.peers p).pi else .free) :
    (store c s₁ p ds ready signal lock).toCore = { x.setPeer p ((x.peers p).publish c e) with fabric := f } := by
  have hpeer : s₁.peers p = { x.peers p with opSeq := (x.peers p).opSeq + UInt64.ofNat e.descs.length } := by
    rw [congrArg Core.peers hs]
    exact Core.advanced_self ..
  have hr : ready.getD (x.peers p).readySeq = if e.stores then e.last (x.peers p).opSeq else (x.peers p).readySeq := by
    rw [hready]
    split_ifs <;> rfl
  have hg : signal.toList = if e.signals then [e.last (x.peers p).opSeq] else [] := by
    rw [hsignal]
    split_ifs <;> rfl
  unfold store
  rw [Proxy.setPeer_core, hpeer, hds, number_length, hr, hg, hlock, hs]
  simp [Core.advanced, Core.setPeer, Peer.publish, Enqueue.last]

theorem publish_move {f' : Fabric (Fin n)} {ready : Option UInt64} {lock : Lock} (hlock : (s.peers p).lock = .admitted e)
    (hsub : submitAll p s.fabric (((number (s.peers p).opSeq e.descs).map (·.toSubmission)).take e.descs.length) = some f)
    (hseal : sealed? f e.group = some f') (hcore : s₁.toCore = s.toCore.advanced p e.descs.length f')
    (hds : ds = (number (s.peers p).opSeq e.descs).take e.descs.length)
    (hready : ready = if e.stores then some (e.last (s.peers p).opSeq) else none)
    (hsignal : signal = if e.signals then some (e.last (s.peers p).opSeq) else none)
    (hfree : lock = if e.isIpc then .arming (s.peers p).pi else .free) :
    Move c s.toCore (.publish p) (store c s₁ p ds ready signal lock).toCore
      (ds.map fun d => .published p d.toSubmission (if e.signals then some (e.last (s.peers p).opSeq) else none)) := by
  have hfull : (number (s.peers p).opSeq e.descs).take e.descs.length = number (s.peers p).opSeq e.descs :=
    take_of_length_le (number_length ..).le
  rw [← map_take, hfull] at hsub
  rw [hfull] at hds
  rw [store_core hcore hds hready hsignal hfree, hds]
  exact .publish p e f f' hlock hsub hseal

theorem unpublish_move {k : Nat} {s₂ : Proxy n} (hlock : (s.peers p).lock = .admitted e) (hk : k ≤ e.descs.length)
    (hsub : submitAll p s.fabric (((number (s.peers p).opSeq e.descs).map (·.toSubmission)).take k) = some f)
    (hds : ds = (number (s.peers p).opSeq e.descs).take k) (h₁ : s₁.toCore = s.toCore.advanced p k f)
    (h₂ : s₂.toCore = s₁.toCore) : Move c s.toCore (.publish p) (unlock (rollback p s₂ ds).2 p).toCore [] := by
  have hlen : ds.length = k := by
    rw [hds, length_take, number_length]
    omega
  rw [rollback_advanced h₁ hlen s₁.fabric h₂, hds, map_take, congrArg Core.fabric h₁]
  exact .unpublish p e k f hlock hsub

theorem last_advanced
    (h : s₁.toCore = s.toCore.advanced p e.descs.length f) : (s₁.peers p).opSeq = e.last (s.peers p).opSeq := by
  rw [congrArg Core.peers h]
  exact congrArg Peer.opSeq (Core.advanced_self ..)

theorem publish_moves {out : Result × Proxy n × List (Note n)} (h : publish c s p = some out) :
    Move c s.toCore (.publish p) out.2.1.toCore out.2.2 := by
  unfold publish at h
  split at h
  · -- one descriptor
    rename_i d ready hlock
    obtain ⟨k, f, hout, hk, hsub, hcore, hall⟩ := prepareDescs_core [d] s p
    generalize prepareDescs p s [d] = prep at h hout hcore hall
    obtain ⟨res, s₁, ds⟩ := prep
    by_cases hres : res = .success
    · rw [if_neg (not_not.2 hres)] at h
      cases h
      rw [hall.1 hres] at hsub hcore hout
      rw [last_advanced (e := .desc d ready) hcore]
      exact publish_move hlock hsub rfl hcore hout (by cases ready <;> rfl) rfl rfl
    · rw [if_pos hres] at h
      cases h
      have hk0 : k = 0 := by
        have := mt hall.2 hres
        simp only [length_singleton] at this hk
        omega
      subst hk0
      exact unpublish_move (e := .desc d ready) hlock hk hsub rfl hcore rfl
  · -- a batch
    rename_i ds₀ hlock
    obtain ⟨k, f, hout, hk, hsub, hcore, hall⟩ := prepareDescs_core ds₀ s p
    generalize prepareDescs p s ds₀ = prep at h hout hcore hall
    obtain ⟨res, s₁, ds⟩ := prep
    by_cases hres : res = .success
    · rw [if_neg (not_not.2 hres)] at h
      cases h
      rw [hall.1 hres] at hsub hcore hout
      refine publish_move hlock hsub rfl hcore hout ?_ rfl rfl
      rw [hout, take_of_length_le (number_length ..).le]
      cases ds₀ with
      | nil => rfl
      | cons d ds => exact number_getLast (by simp)
    · rw [if_pos hres] at h
      cases h
      exact unpublish_move (e := .batch ds₀) hlock hk hsub hout hcore rfl
  · -- a release group
    rename_i data release ready hlock
    obtain ⟨k, f, hout, hk, hsub, hcore, hall⟩ := prepareDescs_core (data ++ [release]) s p
    generalize prepareDescs p s (data ++ [release]) = prep at h hout hcore hall
    obtain ⟨res, s₁, ds⟩ := prep
    by_cases hres : res = .success
    · rw [if_neg (not_not.2 hres)] at h
      have hfull := hall.1 hres
      rw [hfull] at hsub hcore hout
      generalize hshut : sealGroup s₁ release.releaseGroup = shut at h
      obtain ⟨verdict, s₂⟩ := shut
      cases hg : release.releaseGroup with
      | none =>
        rw [hg] at hshut
        cases hshut
        cases h
        exact unpublish_move (e := .releaseGroup data release ready) hlock le_rfl hsub hout hcore rfl
      | some g =>
        rw [hg] at hshut
        obtain ⟨hv, hs₂⟩ := Prod.mk.inj hshut
        by_cases hverdict : verdict = .success
        · rw [if_neg (not_not.2 hverdict)] at h
          cases h
          have hf : s₁.fabric = f := congrArg Core.fabric hcore
          have hcore₂ : s₂.toCore = s.toCore.advanced p (Enqueue.releaseGroup data release ready).descs.length
              (f.call (.groupSeal g)).2 := by
            rw [← hs₂, ← hf]
            rw [hcore]
            rfl
          rw [last_advanced hcore₂]
          refine publish_move hlock hsub ?_ hcore₂ hout (by cases ready <;> rfl) rfl rfl
          show sealed? f release.releaseGroup = _
          rw [hg, sealed?, if_pos (by rw [← hf, hv, hverdict])]
        · rw [if_pos hverdict] at h
          cases h
          have hcore₂ : s₂.toCore = s₁.toCore := by
            rw [← hs₂, call_failed (by rw [hv]; exact hverdict)]
          exact unpublish_move (e := .releaseGroup data release ready) hlock le_rfl hsub hout hcore hcore₂
    · rw [if_pos hres] at h
      cases h
      exact unpublish_move (e := .releaseGroup data release ready) hlock hk hsub hout hcore rfl
  · -- an IPC GET
    rename_i d hlock
    obtain ⟨k, f, hout, hk, hsub, hcore, hall⟩ := prepareDescs_core [d] s p
    generalize prepareDescs p s [d] = prep at h hout hcore hall
    obtain ⟨res, s₁, ds⟩ := prep
    by_cases hres : res = .success
    · rw [if_neg (not_not.2 hres)] at h
      cases h
      rw [hall.1 hres] at hsub hcore hout
      have hpi : (s₁.peers p).pi = (s.peers p).pi := by rw [congrArg Core.peers hcore, Core.advanced_self]
      exact publish_move hlock hsub rfl hcore hout rfl rfl (by rw [hpi]; rfl)
    · rw [if_pos hres] at h
      cases h
      have hk0 : k = 0 := by
        have := mt hall.2 hres
        simp only [length_singleton] at this hk
        omega
      subst hk0
      exact unpublish_move (e := .ipcGet d) hlock hk hsub rfl hcore rfl
  · cases h

theorem admitCall_moves {call : ApiCall} {groupId : UInt64} (h : admitCall c s p call groupId = some s') :
    Moves c (.admitCall p call groupId) s.toCore s'.toCore [] := by
  unfold admitCall at h
  dsimp only at h
  split_ifs at h with hok
  obtain ⟨hlock, hvalid, hfits, -, hspace⟩ := hok
  generalize he : call.enqueue s.groupCount groupId = e at h hfits hspace
  have hgroup : e.group = none ∨ (e.group = some s.groupCount ∧ ∃ data release ready, e = .releaseGroup data release ready) := by
    cases call <;> subst he
    all_goals
      first
      | exact .inl rfl
      | exact .inr ⟨rfl, _, _, _, rfl⟩
  split at h
  · rename_i data release ready
    obtain hg | ⟨hg, -⟩ := hgroup
    · -- a release group has its group
      cases call <;> cases he <;> cases hg
    split at h
    · cases h
    · rename_i group hinit
      cases h
      exact .one (.admitGroup p call groupId _ group he.symm hlock hvalid hfits hspace hg hinit)
  · rename_i hno
    cases h
    obtain hg | ⟨-, data, release, ready, rfl⟩ := hgroup
    · exact .one (.admitCall p call groupId e he.symm hlock hvalid hfits hspace hg)
    · exact absurd rfl (hno data release ready)

theorem progress_moves {out : Proxy n × List (Note n)} (h : progress c s ans = some out) :
    Moves c (.progress ans) s.toCore out.1.toCore out.2 := by
  unfold progress at h
  split at h
  · split_ifs at h <;> cases h <;> exact .nil _
  · cases h
    exact .nil _
  · split at h
    · cases h
      exact .nil _
    · rename_i hi
      rw [← some.inj h]
      exact pollEntry_moves hi ans
  · split at h
    · cases h
      exact .nil _
    · rename_i hi
      rw [← some.inj h]
      exact progressGetVisibilityDomain_moves (mem_of_getElem? hi) ans
  · split at h
    · cases h
      exact .one (.prune _)
    · rename_i hi
      rw [← some.inj h]
      exact visibleEntry_moves hi
  · rw [← some.inj h]
    unfold checkPeer
    dsimp only
    split_ifs <;> exact .nil _
  · exact drainEntry_moves h
  · rw [← some.inj h]
    exact ringEntry_moves _ ans
  · rw [← some.inj h]
    unfold finishPass
    split_ifs <;> exact .nil _

/-- **Every step of the proxy is a list of moves on its core**, with the notes of the step. -/
theorem act_moves {a : Action n} (h : act c s a = some (s', ns)) : Moves c a s.toCore s'.toCore ns := by
  cases a with
  | admitCall p call groupId =>
    obtain ⟨s₁, hs, he⟩ := map_eq_some_iff.1 h
    cases he
    exact admitCall_moves hs
  | publish p =>
    obtain ⟨out, hs, he⟩ := map_eq_some_iff.1 h
    have hm := publish_moves hs
    rw [he] at hm
    exact .one hm
  | arm p ipcStatus =>
    obtain ⟨s₁, hs, he⟩ := map_eq_some_iff.1 h
    cases he
    unfold arm at hs
    dsimp only at hs
    split at hs
    · rename_i idx hlock
      cases hs
      exact .one (.arm p idx ipcStatus hlock)
    · cases hs
  | signal p k =>
    unfold act signal at h
    dsimp only at h
    split at h
    · cases h
    · rename_i seq hk
      cases h
      exact .one (.signal p k seq hk)
  | quiesce =>
    cases h
    exact .nil _
  | progress ans => exact progress_moves h
  | dmaRead p i =>
    unfold act dmaRead at h
    dsimp only at h
    split at h
    · cases h
    · rename_i d hi
      split_ifs at h with hok
      cases h
      exact .one (.deliver p i d hi hok.1 hok.2)

end FlagCX.Rma
