import FlagCX.Rma.Sound

/-!
# The accounts of the RMA proxy

The ring, the in-progress queue, the scoreboard and the counters of a peer are four records of the same descriptors, and
each exit of a descriptor updates them by hand. `Accounts` says how they agree, in every run (`rma_accounting`).

* `Book.published_perm` : what was published is in the ring, in progress or completed, each descriptor in one place.
-/

namespace FlagCX.Rma
open List Option

open Net Lib CompletionScoreboard
open KernelProxy (Domain CompletionStage)

variable {n : Nat} {c : Config n}

/-! ## The records -/

def Peer.inRing (c : Config n) (peer : Peer) : List Submission :=
  (range (peer.pi - peer.ci).toNat).map fun k => (peer.ringAt c k).toSubmission

/-- The descriptors in the ring and in the in-progress queue. -/
def Peer.waiting (c : Config n) (peer : Peer) : List Submission := peer.inRing c ++ peer.inProgress.map (·.toSubmission)

def Core.Pending (x : Core n) (p : Fin n) (d : Submission) : Prop :=
  ((x.fabric.boards p).entryAt d.sequence).state = .pending ∧
    ((x.fabric.boards p).entryAt d.sequence).context = d.submitContext

/-- The descriptor was completed with `flagcxInProgress`. -/
def Abandoned (log : List (Note n)) (p : Fin n) (d : Submission) : Prop :=
  ∃ tracked, .completed p d .inProgress tracked ∈ log

def counts (v : Submission × Result × Result) : Bool := v.2.1 = .success ∧ v.1.completesApiOperation

/-- The records of a peer agree: the descriptors that wait are those with a pending entry, the counters follow the queue and
the scoreboard, and every published descriptor waits or was completed once. -/
structure Accounts (c : Config n) (x : Core n) (log : List (Note n)) (p : Fin n) : Prop where
  pending : ∀ d ∈ published (view p log), x.Pending p d ↔ d ∈ (x.peers p).waiting c ∨ Abandoned log p d
  entries : ∀ j < (x.fabric.boards p).capacity.toNat, ((x.fabric.boards p).entries j).state = .pending →
    ∃ d ∈ published (view p log), j = (x.fabric.boards p).slot d.sequence ∧ (d ∈ (x.peers p).waiting c ∨ Abandoned log p d)
  inFlight : (x.peers p).inFlight.toNat = (x.peers p).inProgress.length
  doneSeq : (x.peers p).doneSeq.toNat + 1 = (x.fabric.boards p).nextSequence.toNat
  retired : ∀ d ∈ published (view p log), d.sequence ≤ (x.peers p).doneSeq →
    ∃ result tracked, .completed p d result tracked ∈ log ∧ result ≠ .inProgress
  perm : (published (view p log)).Perm ((x.peers p).waiting c ++ (completions (view p log)).map (·.1))
  nodup : (published (view p log)).Nodup
  accepted : ∀ d result tracked, .completed p d result tracked ∈ log → tracked = .success

/-! ## The ring and the in-progress queue -/

section Peers
variable {peer : Peer} {l : List (Note n)} {d : Submission}

theorem Book.inRing (h : Book c peer l) : peer.inRing c = (published l).drop (consumed l).length := by
  have hsize := h.ring.size c.bits_lt'
  apply ext_getElem?
  intro k
  rw [Peer.inRing, getElem?_map, getElem?_drop]
  by_cases hk : k < (peer.pi - peer.ci).toNat
  · rw [getElem?_range hk, h.ring.slot_at c.bits_lt' c.mask_eq (by omega)]
    rfl
  · rw [getElem?_eq_none (by rw [length_range]; omega), getElem?_eq_none (by omega)]
    rfl

theorem Book.published_perm (h : Book c peer l) : (published l).Perm (peer.waiting c ++ (completions l).map (·.1)) := by
  have hsplit : published l = consumed l ++ peer.inRing c := by
    rw [h.inRing]
    conv_rhs => rw [h.order]
    rw [length_take, min_eq_left h.ring.le, take_append_drop]
  rw [hsplit, Peer.waiting, append_assoc]
  exact perm_append_comm.trans (h.flight.append_left _)

theorem Book.waiting_open (h : Book c peer l) (hd : d ∈ peer.waiting c) : ∀ v ∈ completions l, v.1 ≠ d := by
  intro v hv he
  have hnodup := h.published_perm.nodup_iff.1 h.nodup
  exact (nodup_append.1 hnodup).2.2 d hd v.1 (mem_map_of_mem hv) he.symm

end Peers

/-! ## The scoreboard -/

section Boards
variable {x : Core n} {log : List (Note n)} {p : Fin n} {d : Submission}

theorem Sound.pending_iff (h : Sound c x log) (hd : d ∈ published (view p log)) :
    x.Pending p d ↔ ¬ Final (completions (view p log)) d := by
  have hb := h.boards p
  constructor
  · rintro ⟨hstate, hctx⟩
    have ho : Occupied ((x.fabric.boards p).entryAt d.sequence) := by simp [Occupied, hstate]
    obtain ⟨e, he, hsame, -, hiff⟩ := hb.live _ (slot_lt hb.shape.capacity_pos d.sequence) ho
    have hseq : d.sequence = e.sequence := congrArg SubmitContext.sequence (hctx.symm.trans hsame)
    rw [hb.sequence_inj hd he hseq]
    exact hiff.1 hstate
  · intro hf
    obtain ⟨hn, hp⟩ := hb.pending hd hf
    exact ⟨hp, (hb.entry hd hn).1⟩

/-- A published descriptor without a final completion waits, or was completed with `flagcxInProgress`. -/
theorem Sound.open_iff (h : Sound c x log) (hd : d ∈ published (view p log)) :
    ¬ Final (completions (view p log)) d ↔ d ∈ (x.peers p).waiting c ∨ Abandoned log p d := by
  have hb := h.books p
  constructor
  · intro hf
    rcases mem_append.1 (hb.published_perm.mem_iff.1 hd) with hw | hw
    · exact .inl hw
    · obtain ⟨⟨e, result, tracked⟩, hv, rfl⟩ := mem_map.1 hw
      have hr : result = .inProgress := by
        by_contra hne
        exact hf ⟨result, tracked, hv, hne⟩
      subst hr
      exact .inr ⟨tracked, mem_completions.1 hv⟩
  · rintro hopen ⟨result, tracked, hm, hne⟩
    rcases hopen with hw | ⟨tracked', hm'⟩
    · exact hb.waiting_open hw _ hm rfl
    · have hone := hb.completed_once hm (mem_completions.2 hm') rfl
      exact hne (congrArg (·.2.1) hone)

theorem Sound.accounts (h : Sound c x log) (p : Fin n) : Accounts c x log p := by
  have hb := h.boards p
  have hnext := (h.posted p).next
  refine ⟨fun d hd => (h.pending_iff hd).trans (h.open_iff hd), fun j hj hp => ?_, (h.books p).inFlight, hnext.symm,
    fun d hd hle => ?_, (h.books p).published_perm, (h.books p).nodup, h.accepted p⟩
  · have ho : Occupied ((x.fabric.boards p).entries j) := by simp [Occupied, hp]
    obtain ⟨d, hd, hctx, -, hiff⟩ := hb.live j hj ho
    have hhome := (hb.shape.placed j hj ho).home
    rw [hctx] at hhome
    exact ⟨d, hd, hhome.symm, (h.open_iff hd).1 (hiff.1 hp)⟩
  · have hle' := UInt64.le_iff_toNat_le.1 hle
    obtain ⟨result, tracked, hm, hne⟩ := hb.retired d hd (by omega)
    exact ⟨result, tracked, mem_completions.1 hm, hne⟩

end Boards

/-! ## The completion count -/

section Count
variable {x y : Core n} {a : Action n} {ns log : List (Note n)}

theorem Move.counted (h : Move c x a y ns) :
    y.completionCount = x.completionCount + UInt64.ofNat ((completions ns).countP counts) := by
  have none : ∀ {m : List (Note n)}, completions m = [] →
      x.completionCount = x.completionCount + UInt64.ofNat ((completions m).countP counts) := by
    intro m hm
    rw [hm]
    exact (UInt64.add_zero _).symm
  have one : ∀ (d : Submission) (result tracked : Result),
      x.completionCount + (if result = .success ∧ d.completesApiOperation then 1 else 0) =
        x.completionCount + UInt64.ofNat ([(d, result, tracked)].countP counts) := by
    intro d result tracked
    rw [countP_singleton]
    by_cases hc : result = .success ∧ d.completesApiOperation = true
    · rw [if_pos hc, if_pos (by simpa [counts] using hc)]
      rfl
    · rw [if_neg hc, if_neg (by simpa [counts] using hc)]
      rfl
  cases h with
  | publish p e f f' => exact none (publish_submissions (number (x.peers p).opSeq e.descs) p _).2.2
  | hand p ds call result =>
    refine none (quiet_of_forall fun v hv => ?_).completions
    obtain ⟨d, -, rfl⟩ := mem_map.1 hv
    exact ⟨rfl, rfl, rfl⟩
  | take p hs ds => exact none (take_submissions ds p).2.2
  | domain p index ans pendingError => exact none (quiet_flush (walkDomain_walks _ _).2).completions
  | retire p i d result => exact one d.toSubmission result _
  | settle p d result => exact one d.toSubmission result _
  | _ => exact none rfl

theorem Reachable.counted {ok : Run n → Action n → Prop} {r : Run n} (h : Reachable c ok r) :
    r.proxy.completionCount = UInt64.ofNat ((completions r.log).countP counts) := by
  refine h.keeps (I := fun x log => x.completionCount = UInt64.ofNat ((completions log).countP counts))
    (fun _ _ _ => rfl) fun x a y log ns hI hmove _ => ?_
  rw [hmove.counted, hI, completions_append, countP_append, UInt64.ofNat_add]

end Count

/-! ## Accounting -/

/-- In every run the records of every peer agree, no step takes a watermark back, and the completion count is the number
of API operations that completed with success. -/
theorem rma_accounting {ok : Run n → Action n → Prop} {r : Run n} (h : Reachable c ok r) :
    (∀ p, Accounts c r.proxy.toCore r.log p) ∧
      (∀ a r', step c r a = some r' → ∀ p, (r.proxy.peers p).doneSeq ≤ (r'.proxy.peers p).doneSeq) ∧
      r.proxy.completionCount = UInt64.ofNat ((completions r.log).countP counts) :=
  ⟨h.sound.accounts, fun _ _ hstep p => step_doneSeq_le hstep p, h.counted⟩

/-! ## A put, and one whose test is never answered -/

def onePut : ApiCall := .put ⟨0, 0, 8, 0, 0⟩ false 0 false

def onePutDesc : Submission := (prepared 1 (putDesc ⟨0, 0, 8, 0, 0⟩ 0 false)).toSubmission

/-- The accounts after a put has completed: one API operation is counted. -/
theorem rma_accounting_put : ∃ r : Run 1, Reachable fourSlots (fun _ _ => True) r ∧
    Accounts fourSlots r.proxy.toCore r.log 0 ∧ r.proxy.completionCount = 1 := by
  have hsome : ((exec (step fourSlots) ⟨fourStart, []⟩
      ([.admitCall 0 onePut 0, .publish 0] ++ replicate 16 (.progress fairAnswers))).map (·.log)) =
      some [.published 0 onePutDesc none, .handed 0 onePutDesc (.iput 0 0 8 (some (0, 0))) .success,
        .consumed 0 onePutDesc, .completed 0 onePutDesc .success .success] := by
    decide +kernel
  obtain ⟨r, hreach, hlog⟩ := exists_run hsome
  obtain ⟨haccounts, -, hcount⟩ := rma_accounting hreach
  refine ⟨r, hreach, haccounts 0, ?_⟩
  rw [hcount, hlog]
  rfl

/-- The adaptor answers `flagcxInProgress` to the test of the request. -/
def stallingAnswers : Answers := { fairAnswers with request := true, test := .inProgress }

/-- The put leaves the in-progress queue, and its entry stays pending. -/
theorem rma_accounting_stalled : ∃ r : Run 1, Reachable fourSlots (fun _ _ => True) r ∧
    ∃ d ∈ published (view 0 r.log), r.proxy.toCore.Pending 0 d ∧ d ∉ (r.proxy.peers 0).waiting fourSlots := by
  have hsome : ((exec (step fourSlots) ⟨fourStart, []⟩
      ([.admitCall 0 onePut 0, .publish 0] ++ replicate 16 (.progress stallingAnswers))).map (·.log)) =
      some [.published 0 onePutDesc none, .handed 0 onePutDesc (.iput 0 0 8 (some (0, 0))) .success,
        .consumed 0 onePutDesc, .completed 0 onePutDesc .inProgress .success] := by
    decide +kernel
  obtain ⟨r, hreach, hlog⟩ := exists_run hsome
  have hs := hreach.sound
  have hpub : onePutDesc ∈ published (view 0 r.log) := mem_published.2 ⟨none, by rw [hlog]; exact mem_cons_self⟩
  have hdone : .completed 0 onePutDesc .inProgress .success ∈ r.log := by
    rw [hlog]
    simp
  refine ⟨r, hreach, onePutDesc, hpub, (hs.pending_iff hpub).2 ?_, fun hw => ?_⟩
  · exact (hs.open_iff hpub).2 (.inr ⟨.success, hdone⟩)
  · exact (hs.books 0).waiting_open hw _ (mem_completions.2 hdone) rfl

end FlagCX.Rma
