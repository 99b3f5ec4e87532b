import FlagCX.Lib.History
import FlagCX.Rma.Books

/-!
# The visibility of GETs (`flagcxRmaProxyProgressGetVisibilityDomain`)

A domain of a peer is known by its place among the peer's domains. `Tide` ties its watermarks to its GETs in progress and
to the log: which sequences are not yet visible, which data is complete, what an outstanding flush covers. It is kept by
the three parts of the walk over a domain and by every move (`Move.tides`), and gives `rma_get_visibility`.
-/

namespace FlagCX.Rma
open List Function

open Net Lib
open KernelProxy (Domain CompletionStage)

variable {n : Nat} {c : Config n}

/-! ## The GETs of a domain -/

/-- The GETs of a visibility domain, among requests in progress. -/
def gets (index : Nat) (l : List Desc) : List Desc :=
  l.filter fun d => d.getVisibilityDomain = some index ∧ d.getSequence ≠ 0

def Note.Turns (p : Fin n) (index : Nat) : Note n → Prop
  | .flushPosted q i _ _ _ _ => q = p ∧ i = index
  | .flushEnded q i _ _ _ => q = p ∧ i = index
  | _ => False

/-- The data of a GET was complete, then a flush of its domain with a target that covers it was posted and taken, and
that flush ended with success. -/
def GetFlushed (p : Fin n) (index : Nat) (d : Submission) (getSequence : Nat) (log : List (Note n)) : Prop :=
  ∃ pre mid post target request,
    log = pre ++ .flushPosted p index d.orderingKey target .success request ::
      mid ++ .flushEnded p index d.orderingKey target .success :: post ∧
    (∀ v ∈ mid, ¬ v.Turns p index) ∧ .dataDone p d index getSequence .success ∈ pre ∧ getSequence ≤ target

/-- A flush of the domain up to its target was posted and taken, and is the last word on the domain. What it covers had
its data complete before. -/
def Sent (p : Fin n) (index : Nat) (domain : Domain) (l : List Desc) (log : List (Note n)) : Prop :=
  ∃ pre mid request,
    log = pre ++ .flushPosted p index domain.orderingKey domain.flushTargetGetSequence .success request :: mid ∧
    (∀ v ∈ mid, ¬ v.Turns p index) ∧
    ∀ d ∈ l, domain.visibleGetSequence < d.getSequence → d.getSequence ≤ domain.flushTargetGetSequence →
      d.completionResult = .success → .dataDone p d.toSubmission index d.getSequence .success ∈ pre

/-- A visibility domain agrees with its GETs in progress and with the log. -/
structure Tide (p : Fin n) (index : Nat) (domain : Domain) (l : List Desc) (log : List (Note n)) : Prop where
  visible_le : domain.visibleGetSequence ≤ domain.flushTargetGetSequence
  target_le : domain.flushTargetGetSequence ≤ domain.dataCompletedGetSequence
  data_le : domain.dataCompletedGetSequence ≤ domain.issuedGetSequence
  sorted : (l.map (·.getSequence)).Pairwise (· < ·)
  live : (l.map (·.getSequence)).filter (domain.visibleGetSequence < ·) =
    range' (domain.visibleGetSequence + 1) (domain.issuedGetSequence - domain.visibleGetSequence)
  bound : ∀ d ∈ l, d.getSequence ≤ domain.issuedGetSequence
  idle : domain.inUse = false → l = [] ∧ domain.issuedGetSequence = 0
  key : ∀ d ∈ l, d.orderingKey = domain.orderingKey
  complete : ∀ d ∈ l, d.getSequence ≤ domain.dataCompletedGetSequence → d.getDataComplete = true
  stage : ∀ d ∈ l, d.getDataComplete = true → d.completionStage = .flushPending
  told : ∀ d ∈ l, d.getDataComplete = true → d.completionResult = .success →
    .dataDone p d.toSubmission index d.getSequence .success ∈ log
  shown : ∀ d ∈ l, d.getSequence ≤ domain.visibleGetSequence → d.completionResult = .success →
    GetFlushed p index d.toSubmission d.getSequence log
  awaits : domain.flushRequest ≠ none → domain.visibleGetSequence < domain.flushTargetGetSequence ∧ Sent p index domain l log

variable {result : Result}

section Tide
variable {p : Fin n} {index : Nat} {domain : Domain} {l l' : List Desc} {log ns : List (Note n)} {d : Desc}

theorem mem_gets : d ∈ gets index l ↔ d ∈ l ∧ d.getVisibilityDomain = some index ∧ d.getSequence ≠ 0 := by simp [gets]

theorem gets_append (l l' : List Desc) : gets index (l ++ l') = gets index l ++ gets index l' := filter_append ..

theorem gets_eq_nil (h : ∀ d ∈ l, d.getSequence = 0) : gets index l = [] := by
  refine filter_eq_nil_iff.2 fun d hd => ?_
  simp [h d hd]

/-! ## Logs that grow -/

variable {getSequence : Nat}

theorem GetFlushed.append {d : Submission} (h : GetFlushed p index d getSequence log)
    (ns : List (Note n)) : GetFlushed p index d getSequence (log ++ ns) := by
  obtain ⟨pre, mid, post, target, request, rfl, hrest⟩ := h
  exact ⟨pre, mid, post ++ ns, target, request, by simp, hrest⟩

theorem Sent.append (h : Sent p index domain l log) (hns : ∀ v ∈ ns, ¬ v.Turns p index) :
    Sent p index domain l (log ++ ns) := by
  obtain ⟨pre, mid, request, rfl, hmid, hdone⟩ := h
  refine ⟨pre, mid ++ ns, request, by simp, fun v hv => ?_, hdone⟩
  exact (mem_append.1 hv).elim (hmid v) (hns v)

theorem Tide.append (h : Tide p index domain l log) (hns : ∀ v ∈ ns, ¬ v.Turns p index) :
    Tide p index domain l (log ++ ns) :=
  { h with
    told := fun d hd hc hs => mem_append_left _ (h.told d hd hc hs)
    shown := fun d hd hle hs => (h.shown d hd hle hs).append ns
    awaits := fun hr => ⟨(h.awaits hr).1, (h.awaits hr).2.append hns⟩ }

theorem Tide.forget (h : Tide p index domain l log) : Tide p index { domain with flushRequest := none } l log :=
  { h with awaits := fun hr => absurd rfl hr }

/-! ## Requests that get an error -/

theorem marked_sequences (h : List.Forall₂ Marked l l') : l'.map (·.getSequence) = l.map (·.getSequence) := by
  induction h with
  | nil => rfl
  | cons hm _ ih => rw [map_cons, map_cons, ih, hm.same]

theorem marked_gets (h : List.Forall₂ Marked l l') : List.Forall₂ Marked (gets index l) (gets index l') := by
  induction h with
  | nil => exact .nil
  | @cons d d' _ _ hm _ ih =>
    have hsame : (d'.getVisibilityDomain = some index ∧ d'.getSequence ≠ 0) ↔
        (d.getVisibilityDomain = some index ∧ d.getSequence ≠ 0) := by rw [hm.same]
    unfold gets at ih ⊢
    by_cases hd : d.getVisibilityDomain = some index ∧ d.getSequence ≠ 0
    · rw [filter_cons_of_pos (by simpa using hd), filter_cons_of_pos (by simpa using hsame.2 hd)]
      exact .cons hm ih
    · rw [filter_cons_of_neg (by simpa using hd), filter_cons_of_neg (by simpa using fun h => hd (hsame.1 h))]
      exact ih

theorem Sent.marked (h : Sent p index domain l log) (hm : List.Forall₂ Marked l l') : Sent p index domain l' log := by
  obtain ⟨pre, mid, request, hlog, hmid, hdone⟩ := h
  refine ⟨pre, mid, request, hlog, hmid, fun d' hd' hlo hhi hs => ?_⟩
  obtain ⟨d, hd, hmark⟩ := marked_source hm hd'
  rw [hmark.same] at hlo hhi ⊢
  exact hdone d hd hlo hhi (hmark.success hs)

theorem Tide.marked (h : Tide p index domain l log) (hm : List.Forall₂ Marked l l') : Tide p index domain l' log := by
  have source : ∀ d' ∈ l', ∃ d ∈ l, Marked d d' := fun d' hd' => marked_source hm hd'
  refine ⟨h.visible_le, h.target_le, h.data_le, ?_, ?_, fun d' hd' => ?_, fun hu => ⟨?_, (h.idle hu).2⟩, fun d' hd' => ?_,
    fun d' hd' => ?_, fun d' hd' => ?_, fun d' hd' => ?_, fun d' hd' => ?_,
    fun hr => ⟨(h.awaits hr).1, (h.awaits hr).2.marked hm⟩⟩
  · rw [marked_sequences hm]
    exact h.sorted
  · rw [marked_sequences hm]
    exact h.live
  · obtain ⟨d, hd, hmark⟩ := source d' hd'
    rw [hmark.same]
    exact h.bound d hd
  · have hlen := hm.length_eq
    rw [(h.idle hu).1] at hlen
    exact length_eq_zero_iff.1 hlen.symm
  · obtain ⟨d, hd, hmark⟩ := source d' hd'
    rw [hmark.same]
    exact h.key d hd
  · obtain ⟨d, hd, hmark⟩ := source d' hd'
    rw [hmark.same]
    exact h.complete d hd
  · obtain ⟨d, hd, hmark⟩ := source d' hd'
    rw [hmark.same]
    exact h.stage d hd
  · obtain ⟨d, hd, hmark⟩ := source d' hd'
    intro hc hs
    rw [hmark.same] at hc ⊢
    exact h.told d hd hc (hmark.success hs)
  · obtain ⟨d, hd, hmark⟩ := source d' hd'
    intro hle hs
    rw [hmark.same] at hle ⊢
    exact h.shown d hd hle (hmark.success hs)

/-! ## Looking for a GET -/

theorem Tide.sequence_inj (h : Tide p index domain l log) {e : Desc} (hd : d ∈ l) (he : e ∈ l)
    (hs : d.getSequence = e.getSequence) : d = e :=
  inj_on_of_nodup_map (h.sorted.imp (fun hlt => ne_of_lt hlt)) hd he hs

theorem findGet_some (h : findGet l index getSequence = some d) (hne : getSequence ≠ 0) :
    d ∈ gets index l ∧ d.getSequence = getSequence := by
  have hmem := mem_of_find?_eq_some h
  have hboth := find?_some h
  rw [decide_eq_true_eq] at hboth
  exact ⟨mem_gets.2 ⟨hmem, hboth.1, by rw [hboth.2]; exact hne⟩, hboth.2⟩

theorem findGet_of_mem (h : Tide p index domain (gets index l) log) (hd : d ∈ gets index l) :
    findGet l index d.getSequence = some d := by
  obtain ⟨hmem, hdom, hne⟩ := mem_gets.1 hd
  cases hfind : findGet l index d.getSequence with
  | none =>
    have hno := find?_eq_none.1 hfind d hmem
    simp [hdom] at hno
  | some e =>
    obtain ⟨he, hseq⟩ := findGet_some hfind hne
    rw [h.sequence_inj he hd hseq]

theorem completedPrefix_spec (l : List Desc) (index fuel a : Nat) :
    a ≤ completedPrefix l index fuel a ∧ completedPrefix l index fuel a ≤ a + fuel ∧
      ∀ k, a < k → k ≤ completedPrefix l index fuel a → ∃ d, findGet l index k = some d ∧ d.getDataComplete = true := by
  induction fuel generalizing a with
  | zero => exact ⟨le_rfl, le_rfl, fun k hlo hhi => absurd hlo (not_lt.2 hhi)⟩
  | succ fuel ih =>
    rw [completedPrefix]
    split
    · exact ⟨le_rfl, Nat.le_add_right .., fun k hlo hhi => absurd hlo (not_lt.2 hhi)⟩
    · rename_i next hnext
      split_ifs with hc
      · obtain ⟨h1, h2, h3⟩ := ih (a + 1)
        refine ⟨by omega, by omega, fun k hlo hhi => ?_⟩
        rcases lt_or_ge (a + 1) k with hk | hk
        · exact h3 k hk hhi
        · obtain rfl : k = a + 1 := by omega
          exact ⟨next, hnext, hc⟩
      · exact ⟨le_rfl, Nat.le_add_right .., fun k hlo hhi => absurd hlo (not_lt.2 hhi)⟩

/-- The round of `flushRange` for one sequence. -/
def rangeStep (l : List Desc) (index : Nat) (range : Option Desc) (getSequence : Nat) : Option Desc :=
  match findGet l index getSequence with
  | some candidate => if candidate.completionResult = .success then some candidate else range
  | none => range

theorem flushRange_none {visible targetLimit : Nat} (h : flushRange l index visible targetLimit = none) {k : Nat}
    (hlo : visible < k) (hhi : k ≤ targetLimit) (hd : findGet l index k = some d) : d.completionResult ≠ .success := by
  have hfold : ∀ (ks : List Nat) (range : Option Desc), ks.foldl (rangeStep l index) range = none →
      range = none ∧ ∀ k ∈ ks, ∀ d, findGet l index k = some d → d.completionResult ≠ .success := by
    intro ks
    induction ks with
    | nil => exact fun range hr => ⟨hr, by simp⟩
    | cons k ks ih =>
      intro range hr
      rw [foldl_cons] at hr
      obtain ⟨hone, hrest⟩ := ih _ hr
      rw [rangeStep] at hone
      cases hfind : findGet l index k with
      | none =>
        rw [hfind] at hone
        refine ⟨hone, fun j hj e he => ?_⟩
        rcases mem_cons.1 hj with rfl | hj
        · rw [hfind] at he
          cases he
        · exact hrest j hj e he
      | some candidate =>
        rw [hfind] at hone
        dsimp only at hone
        split_ifs at hone with hs
        refine ⟨hone, fun j hj e he => ?_⟩
        rcases mem_cons.1 hj with rfl | hj
        · rw [hfind] at he
          cases he
          exact hs
        · exact hrest j hj e he
  refine (hfold _ none h).2 k ?_ d hd
  rw [mem_range'_1]
  omega

/-! ## The range of a failed flush -/

theorem failGet_fails (hr : result ≠ .success) (hne : getSequence ≠ 0)
    (hnodup : ((gets index l).map (·.getSequence)).Nodup) (hd : d ∈ failGet index result l getSequence)
    (hdom : d.getVisibilityDomain = some index) (hseq : d.getSequence = getSequence) : d.completionResult ≠ .success := by
  induction l with
  | nil => exact absurd hd not_mem_nil
  | cons e l ih =>
    unfold failGet at hd
    by_cases hmatch : e.getVisibilityDomain = some index ∧ e.getSequence = getSequence
    · rw [if_pos hmatch] at hd
      rcases mem_cons.1 hd with rfl | hd
      · split_ifs with hs
        · exact hr
        · exact hs
      · -- the sequence is that of the head, so none of the rest has it
        rw [gets, filter_cons_of_pos (by simp [hmatch, hne]), map_cons, nodup_cons] at hnodup
        refine absurd ?_ hnodup.1
        rw [hmatch.2, ← hseq]
        exact mem_map_of_mem (mem_gets.2 ⟨hd, hdom, by rw [hseq]; exact hne⟩)
    · rw [if_neg hmatch] at hd
      rcases mem_cons.1 hd with rfl | hd
      · exact absurd ⟨hdom, hseq⟩ hmatch
      · refine ih (hnodup.sublist ?_) hd
        exact ((sublist_cons_self e l).filter _).map _

theorem failCovered_fails (hr : result ≠ .success) {previous visible : Nat}
    (hnodup : ((gets index l).map (·.getSequence)).Nodup)
    (hd : d ∈ gets index (failCovered l index previous visible result)) (hlo : previous < d.getSequence)
    (hhi : d.getSequence ≤ visible) : d.completionResult ≠ .success := by
  obtain ⟨hmem, hdom, hne⟩ := mem_gets.1 hd
  have hin : d.getSequence ∈ range' (previous + 1) (visible - previous) := by
    rw [mem_range'_1]
    omega
  unfold failCovered at hmem
  generalize range' (previous + 1) (visible - previous) = ks at hin hmem
  clear hd
  induction ks generalizing l with
  | nil => exact absurd hin not_mem_nil
  | cons k ks ih =>
    rw [foldl_cons] at hmem
    have hone : List.Forall₂ Marked l (failGet index result l k) := failGet_marked hr l k
    have hnodup' : ((gets index (failGet index result l k)).map (·.getSequence)).Nodup := by
      rw [marked_sequences (marked_gets hone)]
      exact hnodup
    by_cases hk : d.getSequence ∈ ks
    · exact ih hnodup' hk hmem
    · have heq : d.getSequence = k := (mem_cons.1 hin).resolve_right hk
      have hrest : List.Forall₂ Marked (failGet index result l k) (ks.foldl (failGet index result) (failGet index result l k)) := by
        clear ih hin hmem hk hnodup'
        generalize failGet index result l k = m
        induction ks generalizing m with
        | nil => exact marked_refl m
        | cons j ks ih => exact marked_trans (failGet_marked hr m j) (ih _)
      obtain ⟨e, he, hmark⟩ := marked_source hrest hmem
      intro hs
      refine failGet_fails hr (by rw [← heq]; exact hne) hnodup he ?_ ?_ (hmark.success hs)
      · rw [← hdom, hmark.same]
      · rw [← heq, hmark.same]

/-! ## The watermarks move -/

theorem filter_range' {v w m : Nat} (hvw : v ≤ w) (hw : w ≤ v + m) :
    (range' (v + 1) m).filter (w < ·) = range' (w + 1) (v + m - w) := by
  obtain ⟨i, rfl⟩ := Nat.exists_eq_add_of_le hvw
  obtain ⟨j, rfl⟩ := Nat.exists_eq_add_of_le (show i ≤ m by omega)
  have hsplit : range' (v + 1) (i + j) = range' (v + 1) i ++ range' (v + i + 1) j := by
    rw [← range'_append_1]
    congr 2
    omega
  have hlow : (range' (v + 1) i).filter (v + i < ·) = [] := by
    refine filter_eq_nil_iff.2 fun a ha => ?_
    rw [mem_range'_1] at ha
    rw [decide_eq_true_eq]
    omega
  have hhigh : (range' (v + i + 1) j).filter (v + i < ·) = range' (v + i + 1) j := by
    refine filter_eq_self.2 fun a ha => ?_
    rw [mem_range'_1] at ha
    rw [decide_eq_true_eq]
    omega
  rw [hsplit, filter_append, hlow, hhigh, nil_append]
  congr 1
  omega

variable {domain' : Domain}

theorem Tide.reveal (h : Tide p index domain l log) {v : Nat}
    (hlo : domain.visibleGetSequence ≤ v) (hhi : v ≤ domain.dataCompletedGetSequence) (hm : List.Forall₂ Marked l l')
    (huse : domain'.inUse = domain.inUse) (hkey : domain'.orderingKey = domain.orderingKey)
    (hissued : domain'.issuedGetSequence = domain.issuedGetSequence)
    (hdata : domain'.dataCompletedGetSequence = domain.dataCompletedGetSequence)
    (htarget : domain'.flushTargetGetSequence = v) (hvisible : domain'.visibleGetSequence = v)
    (hrequest : domain'.flushRequest = none)
    (hshown : ∀ d ∈ l', domain.visibleGetSequence < d.getSequence → d.getSequence ≤ v → d.completionResult = .success →
      GetFlushed p index d.toSubmission d.getSequence (log ++ ns)) :
    Tide p index domain' l' (log ++ ns) := by
  have h' := h.marked hm
  have hdle := h.data_le
  refine ⟨by rw [htarget, hvisible], by rw [htarget, hdata]; exact hhi, by rw [hdata, hissued]; exact hdle, h'.sorted, ?_,
    by rw [hissued]; exact h'.bound, by rw [huse, hissued]; exact h'.idle, by rw [hkey]; exact h'.key,
    by rw [hdata]; exact h'.complete, h'.stage, fun d hd hc hs => mem_append_left _ (h'.told d hd hc hs),
    fun d hd hle hs => ?_, fun hr => absurd hrequest hr⟩
  · have hlive := congrArg (filter (v < ·)) h'.live
    have hsame : (fun a : Nat => decide (v < a) && decide (domain.visibleGetSequence < a)) = fun a => decide (v < a) := by
      funext a
      by_cases ha : v < a
      · rw [decide_eq_true ha, decide_eq_true (lt_of_le_of_lt hlo ha), Bool.and_self]
      · rw [decide_eq_false ha, Bool.false_and]
    rw [filter_range' hlo (by omega), filter_filter, hsame] at hlive
    rw [hvisible, hissued, hlive]
    congr 1
    omega
  · rw [hvisible] at hle
    by_cases hv : domain.visibleGetSequence < d.getSequence
    · exact hshown d hd hv hle hs
    · exact (h'.shown d hd (not_lt.1 hv) hs).append ns

theorem Sent.flushed (h : Sent p index domain l log) (ht : Tide p index domain l log)
    (hns : ns = [.flushEnded p index domain.orderingKey domain.flushTargetGetSequence .success]) (hd : d ∈ l)
    (hlo : domain.visibleGetSequence < d.getSequence) (hhi : d.getSequence ≤ domain.flushTargetGetSequence)
    (hs : d.completionResult = .success) : GetFlushed p index d.toSubmission d.getSequence (log ++ ns) := by
  obtain ⟨pre, mid, request, rfl, hmid, hdone⟩ := h
  have hkey : d.toSubmission.orderingKey = domain.orderingKey := ht.key d hd
  refine ⟨pre, mid, [], domain.flushTargetGetSequence, request, ?_, hmid, hdone d hd hlo hhi hs, hhi⟩
  rw [hns, hkey]

/-! ## The walk over a domain -/

/-- The invariant of the walk over a domain. -/
structure Shore.Tidal (p : Fin n) (index : Nat) (log : List (Note n)) (s : Shore n) : Prop where
  use : s.domain.inUse = true
  tide : Tide p index s.domain (gets index s.inProgress) (log ++ s.notes)

theorem completeFlush_ok (huse : domain.inUse = true) (hlt : domain.visibleGetSequence < domain.flushTargetGetSequence)
    (hle : domain.flushTargetGetSequence ≤ domain.dataCompletedGetSequence) :
    domain.completeFlush result = .ok { domain with
      flushRequest := none, flushResult := result, visibleGetSequence := domain.flushTargetGetSequence } := by
  unfold Domain.completeFlush
  rw [if_neg]
  rintro (h | h | h | h)
  · rw [huse] at h
    cases h
  · omega
  · omega
  · omega

variable {s : Shore n}

theorem endFlush_tidal (huse : s.domain.inUse = true)
    (ht : Tide p index { s.domain with flushRequest := none } (gets index s.inProgress) (log ++ s.notes))
    (hlt : s.domain.visibleGetSequence < s.domain.flushTargetGetSequence)
    (hsent : result = .success → Sent p index s.domain (gets index s.inProgress) (log ++ s.notes)) :
    Shore.Tidal p index log (endFlush p index result s) := by
  unfold endFlush
  rw [completeFlush_ok huse hlt ht.target_le]
  split_ifs with hr
  · -- all that the flush covers is marked
    refine ⟨huse, ?_⟩
    rw [← append_assoc]
    refine ht.reveal (v := s.domain.flushTargetGetSequence) hlt.le ht.target_le (marked_gets (failCovered_marked hr _ _ _))
      rfl rfl rfl rfl rfl rfl rfl fun d hd hlo hhi hs => ?_
    exact absurd hs (failCovered_fails hr (ht.sorted.imp fun hab => ne_of_lt hab) hd hlo hhi)
  · obtain rfl : result = .success := not_not.1 hr
    refine ⟨huse, ?_⟩
    rw [← append_assoc]
    refine ht.reveal (v := s.domain.flushTargetGetSequence) hlt.le ht.target_le (marked_refl _)
      rfl rfl rfl rfl rfl rfl rfl fun d hd hlo hhi hs => ?_
    have hsent' : Sent p index { s.domain with flushRequest := none } (gets index s.inProgress) (log ++ s.notes) := hsent rfl
    exact hsent'.flushed ht rfl hd hlo hhi hs

theorem testFlush_tidal (h : Shore.Tidal p index log s) (ans : Answers) :
    Shore.Tidal p index log (testFlush p index ans s) := by
  unfold testFlush
  split_ifs with ht
  · obtain ⟨hlt, hsent⟩ := h.tide.awaits ht.1
    exact endFlush_tidal h.use h.tide.forget hlt fun _ => hsent
  · exact h

theorem extendData_tidal (h : Shore.Tidal p index log s) : Shore.Tidal p index log (extendData index s) := by
  have hle := h.tide.data_le
  unfold extendData
  dsimp only
  obtain ⟨hlo, hhi, hfound⟩ := completedPrefix_spec s.inProgress index
    (s.domain.issuedGetSequence - s.domain.dataCompletedGetSequence) s.domain.dataCompletedGetSequence
  generalize completedPrefix s.inProgress index (s.domain.issuedGetSequence - s.domain.dataCompletedGetSequence)
    s.domain.dataCompletedGetSequence = completed at hlo hhi hfound
  split_ifs with hne
  · have hok : s.domain.advanceData completed = .ok { s.domain with dataCompletedGetSequence := completed } := by
      refine if_neg ?_
      rintro (hu | hu | hu)
      · rw [h.use] at hu
        cases hu
      · omega
      · omega
    rw [hok]
    refine ⟨h.use, { h.tide with target_le := ?_, data_le := ?_, complete := fun d hd hdle => ?_ }⟩
    · exact le_trans h.tide.target_le hlo
    · show completed ≤ s.domain.issuedGetSequence
      omega
    · by_cases hold : d.getSequence ≤ s.domain.dataCompletedGetSequence
      · exact h.tide.complete d hd hold
      · obtain ⟨e, he, hc⟩ := hfound d.getSequence (by omega) hdle
        rw [findGet_of_mem h.tide hd] at he
        cases he
        exact hc
  · exact h

theorem Tide.target (h : Tide p index domain l log)
    (he : domain' = { domain with flushTargetGetSequence := domain'.flushTargetGetSequence })
    (hlo : domain.visibleGetSequence ≤ domain'.flushTargetGetSequence)
    (hhi : domain'.flushTargetGetSequence ≤ domain.dataCompletedGetSequence) (hno : domain.flushRequest = none) :
    Tide p index domain' l log := by
  rw [he]
  exact { h with visible_le := hlo, target_le := hhi, awaits := fun hr => absurd hno hr }

theorem begun_cases {retry : Bool} (hretry : retry = decide (domain.visibleGetSequence <
      domain.flushTargetGetSequence)) (h : Tide p index domain l log)
    (hnew : domain.visibleGetSequence < domain.dataCompletedGetSequence)
    (hbegun : (if retry then .ok domain else domain.beginFlush) = (.ok domain' : Except Result Domain)) :
    domain' = { domain with flushTargetGetSequence := domain'.flushTargetGetSequence } ∧
      domain.visibleGetSequence < domain'.flushTargetGetSequence ∧
      domain'.flushTargetGetSequence ≤ domain.dataCompletedGetSequence := by
  split_ifs at hbegun with hr
  · cases hbegun
    rw [hr] at hretry
    exact ⟨rfl, of_decide_eq_true hretry.symm, h.target_le⟩
  · unfold Domain.beginFlush at hbegun
    split_ifs at hbegun
    cases hbegun
    exact ⟨rfl, hnew, le_rfl⟩

theorem postFlush_tidal (h : Shore.Tidal p index log s) (ans : Answers) :
    Shore.Tidal p index log (postFlush p index ans s) := by
  unfold postFlush
  by_cases hidle : s.domain.flushRequest ≠ none ∨ s.domain.dataCompletedGetSequence ≤ s.domain.visibleGetSequence
  · rw [if_pos hidle]
    exact h
  rw [if_neg hidle]
  push Not at hidle
  obtain ⟨hno, hnew⟩ := hidle
  generalize hretry : decide (s.domain.visibleGetSequence < s.domain.flushTargetGetSequence) = retry
  dsimp only
  split
  · -- every GET of the range has failed
    rename_i hrange
    split
    · rename_i domain hadv
      unfold Domain.advanceVisible at hadv
      split_ifs at hadv with hbad
      cases hadv
      push Not at hbad
      have hsame := hbad.2.2.1
      have hr : retry = false := by
        rw [← hretry, hsame]
        exact decide_eq_false (lt_irrefl _)
      rw [hr] at hrange
      refine ⟨h.use, ?_⟩
      have htide : Tide p index { s.domain with
          visibleGetSequence := s.domain.dataCompletedGetSequence
          flushTargetGetSequence := s.domain.dataCompletedGetSequence, flushResult := .success } _ (log ++ s.notes ++ []) :=
        h.tide.reveal (v := s.domain.dataCompletedGetSequence) hnew.le (le_rfl) (marked_refl _) rfl rfl rfl rfl rfl rfl hno fun d hd hlo hhi hs =>
          absurd hs (flushRange_none hrange hlo hhi (findGet_of_mem h.tide hd))
      rwa [append_nil] at htide
    · exact ⟨h.use, h.tide⟩
  · split
    · exact ⟨h.use, h.tide⟩
    · rename_i domain' hbegun
      obtain ⟨hsame, hlt, hle⟩ := begun_cases hretry.symm h.tide hnew hbegun
      have huse : domain'.inUse = true := by
        rw [hsame]
        exact h.use
      have hvis : domain'.visibleGetSequence = s.domain.visibleGetSequence := by rw [hsame]
      have htarget := h.tide.target hsame hlt.le hle hno
      -- the note of the post is about this domain, and no flush was outstanding
      have hgrow : ∀ note : Note n, Tide p index { domain' with flushRequest := none } (gets index s.inProgress)
          (log ++ (s.notes ++ [note])) := by
        intro note
        rw [← append_assoc]
        exact { htarget.forget with
          told := fun d hd hc hs => mem_append_left _ (htarget.told d hd hc hs)
          shown := fun d hd hv hs => (htarget.shown d hd hv hs).append [note]
          awaits := fun hr => absurd rfl hr }
      -- what the target covers had its data complete
      have hsent : ∀ (request : Option Nat) (posted : Bool), Sent p index { domain' with flushRequest := request }
          (gets index s.inProgress) (log ++ (s.notes ++ [.flushPosted p index domain'.orderingKey
            domain'.flushTargetGetSequence .success posted])) := by
        intro request posted
        refine ⟨log ++ s.notes, [], posted, by simp, by simp, fun d hd hlo hhi hs => ?_⟩
        have hhi' : d.getSequence ≤ domain'.flushTargetGetSequence := hhi
        exact h.tide.told d hd (h.tide.complete d hd (le_trans hhi' hle)) hs
      split_ifs with hpost htaken
      · exact ⟨huse, hgrow _⟩
      · refine ⟨huse, { hgrow _ with awaits := fun _ => ⟨by rw [← hvis] at hlt; exact hlt, ?_⟩ }⟩
        rw [htaken.1]
        exact hsent ans.flushRequest _
      · refine endFlush_tidal (s := { s with domain := { domain' with flushRequest := ans.flushRequest }, notes := _ }) huse
          (hgrow _) (by rw [← hvis] at hlt; exact hlt) fun hs => ?_
        rw [hs]
        exact hsent ans.flushRequest _

/-- **The walk over a domain keeps its tide.** -/
theorem walkDomain_tide {peer : Peer} (ans : Answers) (pendingError : Bool) (huse : (peer.domains index).inUse = true)
    (h : Tide p index (peer.domains index) (gets index peer.inProgress) log) :
    Tide p index (walkDomain p peer index ans pendingError).domain
      (gets index (walkDomain p peer index ans pendingError).inProgress)
      (log ++ (walkDomain p peer index ans pendingError).notes) := by
  have hstart : Shore.Tidal p index log ⟨peer.domains index, peer.inProgress, pendingError, []⟩ :=
    ⟨huse, by rw [append_nil]; exact h⟩
  exact (postFlush_tidal (extendData_tidal (testFlush_tidal hstart ans)) ans).tide

/-! ## Requests that come and go -/

theorem tide_empty (h : domain.issuedGetSequence = 0 ∧ domain.dataCompletedGetSequence = 0 ∧
    domain.flushTargetGetSequence = 0 ∧ domain.visibleGetSequence = 0 ∧ domain.flushRequest = none) :
    Tide p index domain [] log := by
  obtain ⟨h1, h2, h3, h4, h5⟩ := h
  refine ⟨by omega, by omega, by omega, .nil, ?_, by simp, fun _ => ⟨rfl, h1⟩, by simp, by simp, by simp, by simp, by simp,
    fun hr => absurd h5 hr⟩
  rw [h1, h4]
  rfl

section

variable {l₁ l₂ : List Desc} (h : Tide p index domain (l₁ ++ d :: l₂) log)
include h

theorem Tide.leave (hv : d.getSequence ≤ domain.visibleGetSequence) : Tide p index domain (l₁ ++ l₂) log := by
  have hsub : ∀ e ∈ l₁ ++ l₂, e ∈ l₁ ++ d :: l₂ := by
    intro e he
    rw [mem_append] at he
    exact mem_append.2 (he.imp_right (mem_cons_of_mem d))
  refine ⟨h.visible_le, h.target_le, h.data_le, ?_, ?_, fun e he => h.bound e (hsub e he), fun hu => ?_,
    fun e he => h.key e (hsub e he), fun e he => h.complete e (hsub e he), fun e he => h.stage e (hsub e he),
    fun e he => h.told e (hsub e he), fun e he => h.shown e (hsub e he), fun hr => ⟨(h.awaits hr).1, ?_⟩⟩
  · exact h.sorted.sublist (((sublist_cons_self d l₂).append_left l₁).map _)
  · have hlive := h.live
    rw [map_append, map_cons, filter_append, filter_cons_of_neg (by simpa using hv)] at hlive
    rw [map_append, filter_append]
    exact hlive
  · exact absurd (h.idle hu).1 (by simp)
  · obtain ⟨pre, mid, request, hlog, hmid, hdone⟩ := (h.awaits hr).2
    exact ⟨pre, mid, request, hlog, hmid, fun e he => hdone e (hsub e he)⟩

theorem Tide.done {d' : Desc} (hstage : d.completionStage ≠ .flushPending)
    (hd' : d' = { d with request := false, completionResult := result, getDataComplete := true, completionStage := .flushPending })
    (hns : ns = [.dataDone p d.toSubmission index d.getSequence result]) :
    Tide p index domain (l₁ ++ d' :: l₂) (log ++ ns) := by
  have hmem : d ∈ l₁ ++ d :: l₂ := by simp
  have hlate : domain.dataCompletedGetSequence < d.getSequence := by
    by_contra hle
    exact hstage (h.stage d hmem (h.complete d hmem (not_lt.1 hle)))
  have h1 := h.visible_le
  have h2 := h.target_le
  have hseq : d'.getSequence = d.getSequence := by rw [hd']
  have hseqs : (l₁ ++ d' :: l₂).map (·.getSequence) = (l₁ ++ d :: l₂).map (·.getSequence) := by simp [hseq]
  have hcases : ∀ {P : Desc → Prop}, P d' → (∀ e ∈ l₁ ++ d :: l₂, P e) → ∀ e ∈ l₁ ++ d' :: l₂, P e := by
    intro P hp hall e he
    rw [mem_append, mem_cons] at he
    rcases he with he | rfl | he
    · exact hall e (by simp [he])
    · exact hp
    · exact hall e (by simp [he])
  have hquiet : ∀ v ∈ ns, ¬ v.Turns p index := by
    intro v hv
    rw [hns, mem_singleton] at hv
    rw [hv]
    exact id
  have happ := h.append hquiet
  refine ⟨h1, h2, h.data_le, by rw [hseqs]; exact h.sorted, by rw [hseqs]; exact h.live, hcases ?_ h.bound, fun hu => ?_,
    hcases ?_ h.key, hcases ?_ h.complete, hcases ?_ h.stage, hcases ?_ happ.told, hcases ?_ happ.shown, fun hr => ?_⟩
  · rw [hseq]
    exact h.bound d hmem
  · exact absurd (h.idle hu).1 (by simp)
  · rw [hd']
    exact h.key d hmem
  · intro hle
    omega
  · intro _
    rw [hd']
  · intro _ hs
    rw [hd'] at hs ⊢
    rw [hns]
    rw [show result = .success from hs]
    exact mem_append_right _ (mem_singleton_self _)
  · intro hle
    omega
  · obtain ⟨hlt, pre, mid, request, hlog, hmid, hdone⟩ := happ.awaits hr
    refine ⟨hlt, pre, mid, request, hlog, hmid, hcases ?_ hdone⟩
    intro _ hle
    omega

end

theorem Tide.issued (h : Tide p index domain l log)
    (hissue : domain.issue = .ok (domain', getSequence)) (hseq : d.getSequence = getSequence)
    (hkey : d.orderingKey = domain.orderingKey) (hdata : d.getDataComplete = false) :
    Tide p index domain' (l ++ [d]) log := by
  unfold Domain.issue at hissue
  split_ifs at hissue with hbad
  cases hissue
  push Not at hbad
  have h1 := h.visible_le
  have h2 := h.target_le
  have h3 := h.data_le
  have hcases : ∀ {P : Desc → Prop}, (∀ e ∈ l, P e) → P d → ∀ e ∈ l ++ [d], P e := by
    intro P hall hp e he
    rcases mem_append.1 he with he | he
    · exact hall e he
    · rw [mem_singleton.1 he]
      exact hp
  refine ⟨h1, h2, Nat.le_succ_of_le h3, ?_, ?_, hcases (fun e he => ?_) ?_, fun hu => ?_,
    hcases h.key hkey, hcases h.complete ?_, hcases h.stage ?_, hcases h.told ?_, hcases h.shown ?_, fun hr => ?_⟩
  · rw [map_append, pairwise_append]
    refine ⟨h.sorted, pairwise_singleton _ _, fun a ha b hb => ?_⟩
    obtain ⟨e, he, rfl⟩ := mem_map.1 ha
    have hle := h.bound e he
    obtain rfl : b = d.getSequence := by simpa using hb
    omega
  · have hlen : domain.issuedGetSequence + 1 - domain.visibleGetSequence =
        domain.issuedGetSequence - domain.visibleGetSequence + 1 := by omega
    have hlast : ([d].map (·.getSequence)).filter (domain.visibleGetSequence < ·) =
        [domain.visibleGetSequence + 1 + (domain.issuedGetSequence - domain.visibleGetSequence)] := by
      have hlt : domain.visibleGetSequence < d.getSequence := by omega
      rw [map_singleton, filter_cons_of_pos (by simpa using hlt), filter_nil, hseq]
      congr 1
      omega
    rw [hlen, range'_1_concat, map_append, filter_append, hlast]
    exact congrArg (· ++ _) h.live
  · exact Nat.le_succ_of_le (h.bound e he)
  · rw [hseq]
  · exact absurd hu (by simp [hbad.1])
  · intro hle
    have hle' : d.getSequence ≤ domain.dataCompletedGetSequence := hle
    omega
  · intro hc
    rw [hdata] at hc
    cases hc
  · intro hc
    rw [hdata] at hc
    cases hc
  · intro hle
    have hle' : d.getSequence ≤ domain.visibleGetSequence := hle
    omega
  · obtain ⟨hlt, pre, mid, request, hlog, hmid, hdone⟩ := h.awaits hr
    refine ⟨hlt, pre, mid, request, hlog, hmid, hcases hdone ?_⟩
    intro _ hle
    have hle' : d.getSequence ≤ domain.flushTargetGetSequence := hle
    omega

end Tide

/-! ## The domains of a peer -/

/-- Every domain of a peer agrees with its GETs and the log; a GET that has a sequence has a domain; one that needs a
flush and has no sequence has failed. -/
structure Tides (c : Config n) (p : Fin n) (peer : Peer) (log : List (Note n)) : Prop where
  tide : ∀ i, Tide p i (peer.domains i) (gets i peer.inProgress) log
  placed : ∀ d ∈ peer.inProgress, d.getSequence ≠ 0 → ∃ i, d.getVisibilityDomain = some i
  failed : ∀ d ∈ peer.inProgress, d.needsFlush c → d.getSequence = 0 → d.completionResult ≠ .success

section Peers
variable {x y : Core n} {a : Action n} {log ns : List (Note n)} {p q : Fin n} {peer : Peer} {index : Nat}

theorem turns_peer {v : Note n} (h : v.Turns p index) : v.peer = p := by
  cases v <;> first | exact h.1 | exact h.elim

theorem Tides.append (h : Tides c p peer log) (hns : ∀ v ∈ ns, ∀ i, ¬ v.Turns p i) : Tides c p peer (log ++ ns) :=
  ⟨fun i => (h.tide i).append fun v hv => hns v hv i, h.placed, h.failed⟩

variable {peer' : Peer}

theorem Tides.congr (h : Tides c p peer log) (hd : peer'.domains = peer.domains)
    (hp : peer'.inProgress = peer.inProgress) : Tides c p peer' log := by
  refine ⟨fun i => ?_, ?_, ?_⟩
  · rw [hd, hp]
    exact h.tide i
  · rw [hp]
    exact h.placed
  · rw [hp]
    exact h.failed

theorem tides_setPeer (h : ∀ q, Tides c q (x.peers q) log) (hm : ∀ v ∈ ns, v.peer = p)
    (hp : Tides c p peer (log ++ ns)) (q : Fin n) : Tides c q ((x.setPeer p peer).peers q) (log ++ ns) := by
  rw [Core.setPeer_peers]
  split_ifs with hq
  · rw [hq]
    exact hp
  · exact (h q).append fun v hv i ht => hq ((turns_peer ht).symm.trans (hm v hv))

theorem Tides.join (h : Tides c p peer log) {ds : List Desc} (hd : peer'.domains = peer.domains)
    (hp : peer'.inProgress = peer.inProgress ++ ds) (hseq : ∀ d ∈ ds, d.getSequence = 0)
    (hfail : ∀ d ∈ ds, d.needsFlush c → d.completionResult ≠ .success) : Tides c p peer' log := by
  refine ⟨fun i => ?_, fun d hin hne => ?_, fun d hin hn hz => ?_⟩
  · rw [hd, hp, gets_append, gets_eq_nil hseq, append_nil]
    exact h.tide i
  · rw [hp] at hin
    rcases mem_append.1 hin with hin | hin
    · exact h.placed d hin hne
    · exact absurd (hseq d hin) hne
  · rw [hp] at hin
    rcases mem_append.1 hin with hin | hin
    · exact h.failed d hin hn hz
    · exact hfail d hin hn

section

variable {k : Nat} {d : Desc} (h : Tides c p peer log) (hk : peer.inProgress[k]? = some d)
include h hk

theorem Tides.leave (hd : peer'.domains = peer.domains) (hp : peer'.inProgress = peer.inProgress.eraseIdx k)
    (hv : ∀ i, d.getVisibilityDomain = some i → d.getSequence ≤ (peer.domains i).visibleGetSequence) :
    Tides c p peer' log := by
  obtain ⟨hlt, hget⟩ := List.getElem?_eq_some_iff.1 hk
  have hsplit : peer.inProgress = peer.inProgress.take k ++ d :: peer.inProgress.drop (k + 1) := by
    rw [← hget, getElem_cons_drop, take_append_drop]
  have hsub : ∀ e ∈ peer'.inProgress, e ∈ peer.inProgress := by
    rw [hp]
    exact fun e he => (eraseIdx_sublist _ _).subset he
  refine ⟨fun i => ?_, fun e he => h.placed e (hsub e he), fun e he => h.failed e (hsub e he)⟩
  have htide := h.tide i
  rw [hsplit, gets_append] at htide
  rw [hd, hp, eraseIdx_eq_take_drop_succ, gets_append]
  by_cases hin : d.getVisibilityDomain = some i ∧ d.getSequence ≠ 0
  · rw [gets, gets, filter_cons_of_pos (by simpa using hin)] at htide
    exact htide.leave (hv i hin.1)
  · rw [gets, gets, filter_cons_of_neg (by simpa using hin)] at htide
    exact htide

theorem Tides.done (hstage : d.completionStage ≠ .flushPending) (hseq : d.getSequence ≠ 0)
    (hd : peer'.domains = peer.domains)
    (hp : peer'.inProgress = peer.inProgress.set k { d with request := false, completionResult := result, getDataComplete := true, completionStage := .flushPending })
    (hns : ns = [.dataDone p d.toSubmission (d.getVisibilityDomain.getD 0) d.getSequence result]) :
    Tides c p peer' (log ++ ns) := by
  obtain ⟨hlt, hget⟩ := List.getElem?_eq_some_iff.1 hk
  have hmem : d ∈ peer.inProgress := mem_of_getElem? hk
  have hsplit : peer.inProgress = peer.inProgress.take k ++ d :: peer.inProgress.drop (k + 1) := by
    rw [← hget, getElem_cons_drop, take_append_drop]
  obtain ⟨index, hdom⟩ := h.placed d hmem hseq
  have hquiet : ∀ v ∈ ns, ∀ i, ¬ v.Turns p i := by
    intro v hv i
    rw [hns, mem_singleton] at hv
    rw [hv]
    exact id
  rw [set_eq_take_append_cons_drop, if_pos hlt] at hp
  have hcases : ∀ {P : Desc → Prop}, P { d with
      request := false, completionResult := result, getDataComplete := true, completionStage := .flushPending } →
      (∀ e ∈ peer.inProgress, P e) → ∀ e ∈ peer'.inProgress, P e := by
    intro P hone hall e he
    rw [hp, mem_append, mem_cons] at he
    rcases he with he | rfl | he
    · exact hall e (mem_of_mem_take he)
    · exact hone
    · exact hall e (mem_of_mem_drop he)
  refine ⟨fun i => ?_, hcases (fun _ => ⟨index, hdom⟩) h.placed, hcases (fun _ hz => absurd hz hseq) h.failed⟩
  have htide := h.tide i
  rw [hsplit, gets_append] at htide
  rw [hd, hp, gets_append]
  by_cases hin : i = index
  · subst hin
    rw [gets, gets, filter_cons_of_pos (by simp [hdom, hseq])] at htide ⊢
    exact htide.done hstage rfl (by rw [hns, hdom]; rfl)
  · have hne : ¬ (d.getVisibilityDomain = some i ∧ d.getSequence ≠ 0) := by
      rintro ⟨hi, -⟩
      rw [hdom] at hi
      exact hin (Option.some.inj hi).symm
    rw [gets, gets, filter_cons_of_neg (by simpa using hne)] at htide ⊢
    exact htide.append fun v hv => hquiet v hv i

end

theorem carried_source {hs ds : List Desc} (h : List.Forall₂ Carried hs ds) {d : Desc} (hd : d ∈ ds) :
    ∃ h' ∈ hs, Carried h' d := by
  induction h with
  | nil => exact absurd hd not_mem_nil
  | cons hc _ ih =>
    rcases mem_cons.1 hd with rfl | hd
    · exact ⟨_, mem_cons_self, hc⟩
    · obtain ⟨h', hin, hc'⟩ := ih hd
      exact ⟨h', mem_cons_of_mem _ hin, hc'⟩

theorem endFlush_turns (s : Shore n) : ∀ v ∈ (endFlush p index result s).notes, v ∈ s.notes ∨ v.Turns p index := by
  have hadd : ∀ note : Note n, note.Turns p index → ∀ v ∈ s.notes ++ [note], v ∈ s.notes ∨ v.Turns p index := by
    intro note hn v hv
    refine (mem_append.1 hv).imp_right fun hin => ?_
    rw [mem_singleton.1 hin]
    exact hn
  unfold endFlush
  split
  · split_ifs <;> exact hadd _ ⟨rfl, rfl⟩
  · exact hadd _ ⟨rfl, rfl⟩

theorem postFlush_turns (ans : Answers) (s : Shore n) :
    ∀ v ∈ (postFlush p index ans s).notes, v ∈ s.notes ∨ v.Turns p index := by
  unfold postFlush
  by_cases hidle : s.domain.flushRequest ≠ none ∨ s.domain.dataCompletedGetSequence ≤ s.domain.visibleGetSequence
  · rw [if_pos hidle]
    exact fun v hv => .inl hv
  rw [if_neg hidle]
  dsimp only
  split
  · split <;> exact fun v hv => .inl hv
  generalize (if decide (s.domain.visibleGetSequence < s.domain.flushTargetGetSequence) = true then Except.ok s.domain
    else s.domain.beginFlush) = began
  cases began with
  | error _ => exact fun v hv => .inl hv
  | ok domain =>
    have hadd : ∀ v ∈ s.notes ++ [.flushPosted p index domain.orderingKey domain.flushTargetGetSequence ans.flushPost
        ans.flushRequest.isSome], v ∈ s.notes ∨ v.Turns p index := by
      intro v hv
      refine (mem_append.1 hv).imp_right fun hin => ?_
      rw [mem_singleton.1 hin]
      exact ⟨rfl, rfl⟩
    split_ifs
    · exact hadd
    · exact hadd
    · exact fun v hv => (endFlush_turns _ v hv).elim (hadd v) .inr

theorem walkDomain_index {i : Nat} {ans : Answers} {pendingError : Bool}
    (v : Note n) (hv : v ∈ (walkDomain p peer index ans pendingError).notes) (ht : v.Turns p i) : i = index := by
  have hturns : v.Turns p index := by
    rcases postFlush_turns ans _ v hv with hin | ht
    · -- the look at the data leaves no note
      have hsame : ∀ s : Shore n, (extendData index s).notes = s.notes := by
        intro s
        unfold extendData
        dsimp only
        split_ifs
        · split <;> rfl
        · rfl
      rw [hsame] at hin
      unfold testFlush at hin
      split_ifs at hin
      · exact (endFlush_turns _ v hin).resolve_left not_mem_nil
      · exact absurd hin not_mem_nil
    · exact ht
  cases v <;> first | exact ht.2.symm.trans hturns.2 | exact ht.elim

theorem Move.tides (h : Move c x a y ns) (hb : ∀ p, Book c (x.peers p) (view p log))
    (ht : ∀ p, Tides c p (x.peers p) log) : ∀ q, Tides c q (y.peers q) (log ++ ns) := by
  have still : ∀ (p : Fin n) (peer : Peer) (m : List (Note n)), peer.domains = (x.peers p).domains →
      peer.inProgress = (x.peers p).inProgress → (∀ v ∈ m, v.peer = p ∧ ∀ i, ¬ v.Turns p i) →
      ∀ q, Tides c q ((x.setPeer p peer).peers q) (log ++ m) := by
    intro p peer m hd hp hm
    exact tides_setPeer ht (fun v hv => (hm v hv).1) (((ht p).congr hd hp).append fun v hv => (hm v hv).2)
  have maps : ∀ {p : Fin n} {ds : List Desc} {f : Desc → Note n}, (∀ d, (f d).peer = p ∧ ∀ i, ¬ (f d).Turns p i) →
      ∀ v ∈ ds.map f, v.peer = p ∧ ∀ i, ¬ v.Turns p i := by
    intro p ds f hf v hv
    obtain ⟨d, -, rfl⟩ := mem_map.1 hv
    exact hf d
  have single : ∀ {p : Fin n} {w : Note n}, (w.peer = p ∧ ∀ i, ¬ w.Turns p i) → ∀ v ∈ [w], v.peer = p ∧ ∀ i, ¬ v.Turns p i := by
    intro p w hw v hv
    rw [mem_singleton.1 hv]
    exact hw
  cases h with
  | admitCall p | admitGroup p | unpublish p | arm p => exact still p _ [] rfl rfl (by simp)
  | publish p | hand p => exact still p _ _ rfl rfl (maps fun d => ⟨rfl, fun _ => id⟩)
  | signal p => exact still p _ _ rfl rfl (single ⟨rfl, fun _ => id⟩)
  | openDomain p index key domain hindex hfree hinit =>
    refine tides_setPeer ht (by simp) ?_
    rw [append_nil]
    refine ⟨fun i => ?_, (ht p).placed, (ht p).failed⟩
    show Tide p i (update (x.peers p).domains index domain i) (gets i (x.peers p).inProgress) log
    rw [update_apply]
    split_ifs with hi
    · -- no GET is left of the domain that was there
      rw [hi, (((ht p).tide index).idle hfree).1]
      unfold Domain.init at hinit
      split_ifs at hinit
      cases hinit
      exact tide_empty ⟨rfl, rfl, rfl, rfl, rfl⟩
    · exact (ht p).tide i
  | take p hs ds hheads hroom hcarried hflush =>
    have hones : ∀ v ∈ ds.map fun d => (Note.consumed p d.toSubmission : Note n), v.peer = p ∧ ∀ i, ¬ v.Turns p i :=
      maps fun d => ⟨rfl, fun _ => id⟩
    refine tides_setPeer ht (fun v hv => (hones v hv).1) (Tides.append ?_ fun v hv => (hones v hv).2)
    refine (ht p).join rfl rfl (fun d hd => ?_) hflush
    obtain ⟨h', hh, hcar⟩ := carried_source hcarried hd
    rw [hcar]
    exact (hheads.fresh (hb p) h' hh).getSequence
  | takeTracked p h' request index getSequence domain hheads hroom hget hactive hissue hkey =>
    have hfresh := hheads.fresh (hb p) h' (mem_singleton_self h')
    have hone : ∀ v ∈ [Note.consumed p h'.toSubmission], v.peer = p ∧ ∀ i, ¬ v.Turns p i := single ⟨rfl, fun _ => id⟩
    refine tides_setPeer ht (fun v hv => (hone v hv).1) (Tides.append ?_ fun v hv => (hone v hv).2)
    have hpos : getSequence ≠ 0 := by
      unfold Domain.issue at hissue
      split_ifs at hissue
      cases hissue
      exact Nat.succ_ne_zero _
    refine ⟨fun i => ?_, fun d hd hne => ?_, fun d hd hn hz => ?_⟩
    · show Tide p i (update (x.peers p).domains index domain i) (gets i ((x.peers p).inProgress ++ [_])) log
      rw [gets_append, update_apply]
      split_ifs with hi
      · rw [hi, gets, gets, filter_cons_of_pos (by simp [hpos]), filter_nil]
        exact Tide.issued ((ht p).tide index) hissue rfl hkey.symm hfresh.data
      · rw [gets, gets, filter_cons_of_neg (by simp [Ne.symm hi]), filter_nil, append_nil]
        exact (ht p).tide i
    · rcases mem_append.1 hd with hd | hd
      · exact (ht p).placed d hd hne
      · rw [mem_singleton.1 hd]
        exact ⟨index, rfl⟩
    · rcases mem_append.1 hd with hd | hd
      · exact (ht p).failed d hd hn hz
      · rw [mem_singleton.1 hd] at hz
        exact absurd hz hpos
  | retire p i d result hi hresult hget =>
    obtain ⟨doneSeq, hpeers⟩ := x.retire_peers p i d.toSubmission result
    have hone : ∀ v ∈ [Note.completed p d.toSubmission result (x.tracked p d.toSubmission result)],
        v.peer = p ∧ ∀ i, ¬ v.Turns p i := single ⟨rfl, fun _ => id⟩
    rw [hpeers]
    refine tides_setPeer ht (fun v hv => (hone v hv).1) (Tides.append ?_ fun v hv => (hone v hv).2)
    refine (ht p).leave hi rfl rfl fun j hj => ?_
    rcases hget with hz | ⟨index, hdom, -, hle, -⟩
    · rw [hz]
      exact Nat.zero_le _
    · rw [hdom] at hj
      cases hj
      exact hle
  | settle p d result hheads hresult =>
    obtain ⟨doneSeq, hpeers⟩ := x.settle_peers p d.toSubmission result
    rw [hpeers]
    refine still p _ _ rfl rfl fun v hv => ?_
    rcases mem_cons.1 hv with rfl | hv
    · exact ⟨rfl, fun _ => id⟩
    · exact single ⟨rfl, fun _ => id⟩ v hv
  | dataDone p i d result hi hstage hseq hresult =>
    refine tides_setPeer ht (fun v hv => ?_) ((ht p).done hi hstage hseq rfl rfl rfl)
    rw [mem_singleton.1 hv]
    rfl
  | domain p index ans pendingError hactive huse =>
    obtain ⟨hmarked, hnotes⟩ : _ ∧ ∀ v ∈ (walkDomain p (x.peers p) index ans pendingError).notes, v.IsFlush p :=
      walkDomain_walks (x.peers p) pendingError
    refine tides_setPeer ht (fun v hv => ?_) ⟨fun i => ?_, fun d hd hne => ?_, fun d hd hn hz => ?_⟩
    · rcases hnotes v hv with ⟨_, _, _, _, _, rfl⟩ | ⟨_, _, _, _, rfl⟩ <;> rfl
    · show Tide p i (update (x.peers p).domains index _ i) (gets i _) _
      rw [update_apply]
      split_ifs with hi
      · rw [hi]
        exact walkDomain_tide ans pendingError huse ((ht p).tide index)
      · refine (((ht p).tide i).marked (marked_gets hmarked)).append fun v hv hturn => hi ?_
        exact walkDomain_index v hv hturn
    · obtain ⟨e, he, hmark⟩ := marked_source hmarked hd
      rw [hmark.same] at hne ⊢
      exact (ht p).placed e he hne
    · obtain ⟨e, he, hmark⟩ := marked_source hmarked hd
      rw [hmark.same] at hz
      intro hs
      refine (ht p).failed e he ?_ hz (hmark.success hs)
      rw [hmark.same] at hn
      exact hn
  | prune p =>
    refine tides_setPeer ht (by simp) ?_
    rw [append_nil]
    refine ⟨fun i => ?_, (ht p).placed, (ht p).failed⟩
    show Tide p i (if i ∈ (x.peers p).active ∧ keepsDomain (x.peers p) i = false then { Domain.unused with peer := -1 } else
      (x.peers p).domains i) (gets i (x.peers p).inProgress) log
    split_ifs with hi
    · -- nothing in progress belongs to it
      have hno : gets i (x.peers p).inProgress = [] := by
        refine filter_eq_nil_iff.2 fun d hd hin => ?_
        have hkeep := hi.2
        simp only [keepsDomain, Bool.or_eq_false_iff, any_eq_false] at hkeep
        rw [decide_eq_true_eq] at hin
        exact hkeep.1.1 d hd (by simp [hin.1])
      rw [hno]
      exact tide_empty ⟨rfl, rfl, rfl, rfl, rfl⟩
    · exact (ht p).tide i
  | deliver p i d =>
    intro q
    refine (ht q).append fun v hv i hturn => ?_
    rw [mem_singleton.1 hv] at hturn
    exact hturn

end Peers

/-! ## Runs -/

/-- A GET that needs a flush completes with success after the flush that covers it. -/
def Seen (c : Config n) (pre : List (Note n)) (v : Note n) : Prop :=
  ∀ p d tracked, v = .completed p d .success tracked → d.needsFlush c →
    ∃ index getSequence, GetFlushed p index d getSequence pre

section Runs
variable {x y : Core n} {a : Action n} {log ns : List (Note n)} {r : Run n}

theorem Move.seen (h : Move c x a y ns) (ht : ∀ p, Tides c p (x.peers p) log) (hs : Justified (Seen c) log) :
    Justified (Seen c) (log ++ ns) := by
  rcases h.completed_cases with ⟨p, i, d, result, hi, hresult, hget, rfl⟩ | ⟨p, d, result, -, hresult, rfl⟩ | hnone
  · refine hs.concat ?_
    rintro q e tracked he hn
    cases he
    have hmem := mem_of_getElem? hi
    have hsuccess : d.completionResult = .success := by
      rcases hresult with hr | hr
      · exact hr.symm
      · exact absurd rfl hr.1
    by_cases hz : d.getSequence = 0
    · exact absurd hsuccess ((ht p).failed d hmem hn hz)
    · obtain ⟨index, hdom, -, hle, -⟩ := hget.resolve_left hz
      exact ⟨index, d.getSequence, ((ht p).tide index).shown d (mem_gets.2 ⟨hmem, hdom, hz⟩) hle hsuccess⟩
  · refine hs.append_idle fun v hv pre q e tracked he hn => ?_
    rw [he] at hv
    simp only [mem_cons, Note.completed.injEq, reduceCtorEq, not_mem_nil, or_false, false_or] at hv
    obtain ⟨-, rfl, rfl, -⟩ := hv
    rcases hresult with hr | ht'
    · exact absurd rfl hr
    · have hg := hn.1
      rw [show d.type = .ipcGet from ht'] at hg
      cases hg
  · refine hs.append_idle fun v hv pre q e tracked he _ => ?_
    have hno := filterMap_eq_nil_iff.1 hnone v hv
    rw [he] at hno
    cases hno

theorem tides_init (p : Fin n) : Tides c p Peer.init ([] : List (Note n)) :=
  ⟨fun _ => tide_empty ⟨rfl, rfl, rfl, rfl, rfl⟩, by simp [Peer.init], by simp [Peer.init]⟩

theorem Reachable.tides {ok : Run n → Action n → Prop} (h : Reachable c ok r) :
    (∀ p, Tides c p (r.proxy.peers p) r.log) ∧ Justified (Seen c) r.log := by
  have hall := h.keeps (I := fun x log => (∀ p, Book c (x.peers p) (view p log)) ∧ (∀ p, Tides c p (x.peers p) log) ∧
    Justified (Seen c) log) (fun _ _ _ => ⟨fun _ => book_init, tides_init, justified_nil _⟩) ?_
  · exact hall.2
  · rintro x a y log ns ⟨hb, ht, hs⟩ hmove -
    exact ⟨hmove.books hb, hmove.tides hb ht, hmove.seen ht hs⟩

/-- In every run the watermarks of every domain are in order, and a GET that needs a flush completes with success only after a
flush of its domain that covers it has ended with success. -/
theorem rma_get_visibility {ok : Run n → Action n → Prop} (h : Reachable c ok r) :
    (∀ p index,
      let domain := (r.proxy.peers p).domains index
      let live := gets index (r.proxy.peers p).inProgress
      (domain.visibleGetSequence ≤ domain.flushTargetGetSequence ∧
        domain.flushTargetGetSequence ≤ domain.dataCompletedGetSequence ∧
        domain.dataCompletedGetSequence ≤ domain.issuedGetSequence) ∧
      (live.map (·.getSequence)).filter (domain.visibleGetSequence < ·) =
        range' (domain.visibleGetSequence + 1) (domain.issuedGetSequence - domain.visibleGetSequence) ∧
      (live.map (·.getSequence)).Pairwise (· < ·) ∧
      ∀ d ∈ live, domain.inUse = true ∧ d.orderingKey = domain.orderingKey ∧ d.getSequence ≤ domain.issuedGetSequence) ∧
    (∀ p, ∀ d ∈ (r.proxy.peers p).inProgress, d.getSequence ≠ 0 → ∃ index, d ∈ gets index (r.proxy.peers p).inProgress) ∧
    ∀ pre post p d tracked, r.log = pre ++ .completed p d .success tracked :: post → d.needsFlush c →
      ∃ index getSequence, GetFlushed p index d getSequence pre := by
  obtain ⟨ht, hs⟩ := h.tides
  refine ⟨fun p index => ?_, fun p d hd hne => ?_, fun pre post p d tracked hlog hn => hs pre _ post hlog p d tracked rfl hn⟩
  · have htide := (ht p).tide index
    refine ⟨⟨htide.visible_le, htide.target_le, htide.data_le⟩, htide.live, htide.sorted, fun d hd => ?_⟩
    refine ⟨?_, htide.key d hd, htide.bound d hd⟩
    by_contra hu
    rw [(htide.idle (by simpa using hu)).1] at hd
    exact absurd hd not_mem_nil
  · obtain ⟨index, hdom⟩ := (ht p).placed d hd hne
    exact ⟨index, mem_gets.2 ⟨hd, hdom, hne⟩⟩

end Runs

/-! ## A GET -/

def oneGet : ApiCall := .get ⟨0, 0, 8, 0, 0⟩ 0 false false

def oneGetDesc : Submission := (prepared 1 (getDesc ⟨0, 0, 8, 0, 0⟩ 0 false false)).toSubmission

/-- It completes with success, and was flushed before. -/
theorem rma_get_visibility_one : ∃ (r : Run 1) (pre post : List (Note 1)), Reachable fourSlots (fun _ _ => True) r ∧
    r.log = pre ++ .completed 0 oneGetDesc .success .success :: post ∧
    ∃ index getSequence, GetFlushed 0 index oneGetDesc getSequence pre := by
  have hsome : ((exec (step fourSlots) ⟨fourStart, []⟩
      ([.admitCall 0 oneGet 0, .publish 0] ++ replicate 16 (.progress fairAnswers))).map (·.log)) =
      some ([.published 0 oneGetDesc none, .handed 0 oneGetDesc (.iget 0 0 8 (some (0, 0))) .success,
        .consumed 0 oneGetDesc, .dataDone 0 oneGetDesc 0 1 .success, .flushPosted 0 0 0 1 .success false,
        .flushEnded 0 0 0 1 .success] ++ .completed 0 oneGetDesc .success .success :: []) := by
    decide +kernel
  obtain ⟨r, hreach, hlog⟩ := exists_run hsome
  exact ⟨r, _, _, hreach, hlog, (rma_get_visibility hreach).2.2 _ _ _ _ _ hlog ⟨rfl, by decide, rfl⟩⟩

end FlagCX.Rma
