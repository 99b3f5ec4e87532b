import FlagCX.P2p.Accounting

/-!
# Whole runs of a transfer

`transferInit` balances the accounts (`transferInit_balanced`), every call of `transferProgress` keeps them
(`transferProgress_keeps`), and `transferQuery` reads its answer off them (`Balanced.query`).
-/

namespace FlagCX.P2p
open List Function

open Lib Net

/-! ## What a query reports -/

section
variable {t : Transfer}

theorem Balanced.inFlight_eq_zero (h : Balanced 0 .success t) : t.scoreboard.inFlight = 0 ↔ t.unfinished = 0 := by
  have hin := h.board.inFlight
  rw [Transfer.unfinished_eq_zero]
  constructor
  · intro hz i hi
    exact h.board.retired i (by omega)
  · intro hall
    by_contra hne
    have hlt : t.scoreboard.nextSequence.toNat < t.size.toNat := by omega
    exact h.stopped hlt (hall _ hlt)

theorem Balanced.statusResult (h : Balanced 0 .success t) :
    statusResult t ((requestCoreTest t.request).2.getD false) (releaseGroupTest t.releaseGroup).done
      (requestCoreTest t.request).1 (releaseGroupTest t.releaseGroup).result = t.terminalResult := by
  unfold P2p.statusResult
  by_cases ht : t.terminalResult = .success
  swap
  · rw [if_pos ht]
  obtain ⟨hclean, hreq, hsb⟩ := h.quiet ht
  have hr : (requestCoreTest t.request).1 = .success := by
    rw [h.request.test]
    split_ifs
    · exact hreq
    · rfl
  have hg : (releaseGroupTest t.releaseGroup).result = .success := by
    unfold releaseGroupTest
    rw [if_neg h.gate.ident]
    split_ifs
    · exact h.gate.first.2 hclean
    · rfl
  rw [if_neg (not_not.2 ht), if_neg (by simp [hr]), if_neg (by simp [hg]), hsb, ht]

theorem Balanced.query (h : Balanced 0 .success t) (hi : t.initialized = true) (hpos : 0 < t.size.toNat) :
    ∃ status, transferQuery t = .ok status ∧ (status.done = true ↔ ∀ i < t.size.toNat, t.Done i) ∧
      (status.releaseAllowed = true → (∀ i < t.size.toNat, t.Done i) ∧ Clean t.log) ∧
      status.result = t.terminalResult ∧ status.inFlight = t.credit.inUse ∧ status.completed = t.completed ∧
      status.pending + status.retired.toNat = t.size.toNat := by
  have hcap : t.scoreboard.capacity ≠ 0 := by
    intro hz
    have hn := h.board.capacity
    rw [hz, UInt32.toNat_zero] at hn
    omega
  obtain ⟨hav, hnat⟩ := h.credit.available
  have hres := h.statusResult
  obtain ⟨hgdone, hgrel⟩ := h.gate.test
  have hdone : ((requestCoreTest t.request).2.getD false && (releaseGroupTest t.releaseGroup).done &&
      decide (t.scoreboard.inFlight = 0)) = true ↔ ∀ i < t.size.toNat, t.Done i := by
    rw [← Transfer.unfinished_eq_zero, Bool.and_eq_true, Bool.and_eq_true, decide_eq_true_eq, h.inFlight_eq_zero, hgdone,
      h.request.test]
    by_cases hz : t.unfinished = 0
    · simp [hz]
    · simp [hz]
  unfold transferQuery
  rw [if_neg (by simp [hi]), if_neg hcap, hav]
  refine ⟨_, rfl, hdone, ?_, hres, ?_, rfl, ?_⟩
  · intro hallowed
    split_ifs at hallowed with hc
    have hall := hdone.1 hc.1
    have hz := t.unfinished_eq_zero.2 hall
    exact ⟨hall, (hgrel.1 ⟨hgdone.2 ⟨rfl, hz⟩, hallowed⟩).2.2⟩
  · apply UInt32.toNat_inj.1
    have hle : t.credit.capacity - t.credit.inUse ≤ t.credit.capacity := by
      rw [UInt32.le_iff_toNat_le]
      omega
    have hwithin := h.credit.within
    rw [UInt32.toNat_sub_of_le _ _ hle]
    omega
  · have hin := h.board.inFlight
    have hsize := t.size.toNat_lt
    have hret : t.scoreboard.nextSequence.toUInt32.toNat = t.scoreboard.nextSequence.toNat := by
      exact Nat.mod_eq_of_lt (by omega)
    dsimp only
    omega

/-! ## One call and a run of calls -/

section

variable (h : Balanced 0 .success t) (hi : t.initialized = true) (hpos : 0 < t.size.toNat)
include h hi hpos

theorem transferProgress_keeps (answers : Answers) :
    (transferProgress t answers).result = .success ∧ Balanced 0 .success (transferProgress t answers).transfer ∧
      Continues t (transferProgress t answers).transfer := by
  have hkeeps : Keeps 0 .success t (andThen (pollInflight t answers.test) fun t => postQueued t answers.post) :=
    (h.pollInflight answers.test).andThen fun t' hb' _ => hb'.postQueued answers.post
  obtain ⟨t', hout, hb, hc⟩ := hkeeps
  obtain ⟨status, hq, -⟩ := hb.query (by rw [hc.initialized]; exact hi) (by rw [hc.size]; exact hpos)
  have hstep : transferProgress t answers = ⟨.success, some status, t'⟩ := by
    unfold transferProgress
    rw [if_neg (by simp [hi]), hout]
    simp only [ne_eq, not_true, if_false, hq]
  rw [hstep]
  exact ⟨rfl, hb, hc⟩

theorem run_keeps (calls : List Answers) : Balanced 0 .success (run t calls) ∧ Continues t (run t calls) := by
  induction calls generalizing t with
  | nil => exact ⟨h, Continues.refl t⟩
  | cons a as ih =>
    obtain ⟨-, hb, hc⟩ := transferProgress_keeps h hi hpos a
    obtain ⟨hb', hc'⟩ := ih hb (by rw [hc.initialized]; exact hi) (by rw [hc.size]; exact hpos)
    exact ⟨hb', hc.trans hc'⟩

end

end

/-! ## Starting a transfer -/

section
variable {ops : Nat → TransferOp} {groupId generation : UInt64}

theorem fresh_initItem {n : UInt32} {i : Nat} (hi : i < n.toNat) :
    Fresh i groupId generation (initItem ops groupId generation i).submit := by
  have hn := n.toNat_lt
  refine ⟨?_, rfl, rfl⟩
  change (UInt64.ofNat i).toNat = i
  exact Nat.mod_eq_of_lt (by omega)

variable {t : Transfer}

theorem submitItems_spec {n : UInt32} (m : Nat) {k : Nat} (hk : k + m = n.toNat)
    (h : Submitting n.toNat k (fun i => (initItem ops groupId generation i).submit) groupId generation t.tracker)
    (hitems : ∀ i < k, t.items i = initItem ops groupId generation i) :
    ∃ items tracker,
      submitItems ops groupId generation (range' k m) t =
        (.success, { t with items := items, tracker := tracker }) ∧
      Submitting n.toNat n.toNat (fun i => (initItem ops groupId generation i).submit) groupId generation tracker ∧
      ∀ i < n.toNat, items i = initItem ops groupId generation i := by
  induction m generalizing k t with
  | zero =>
    obtain rfl : k = n.toNat := by omega
    exact ⟨t.items, t.tracker, rfl, h, hitems⟩
  | succ m ih =>
    have hlt : k < n.toNat := by omega
    obtain ⟨hok, hsub⟩ := h.trackSubmit hlt (fresh_initItem hlt)
    have hnew : ∀ i < k + 1, update t.items k (initItem ops groupId generation k) i =
        initItem ops groupId generation i := by
      intro i hi
      by_cases he : i = k
      · rw [he, update_self]
      · rw [update_of_ne he]
        exact hitems i (by omega)
    obtain ⟨items, tracker, hcall, hs, hi⟩ := ih (k := k + 1)
      (t := { t with
        items := update t.items k (initItem ops groupId generation k),
        tracker := (trackSubmit t.tracker (initItem ops groupId generation k).submit (some 0)).2 })
      (by omega) hsub hnew
    rw [range'_succ, submitItems]
    simp only [Transfer.setItem, update_self]
    rw [hok, andThen_success]
    exact ⟨items, tracker, hcall, hs, hi⟩

theorem counts_queued (h : ∀ i < t.size.toNat, (t.items i).state = .queued) :
    t.inflight = 0 ∧ t.finished = 0 ∧ t.unfinished = t.size.toNat := by
  have hinf : t.inflight = 0 := by
    unfold Transfer.inflight occupied
    rw [Finset.card_eq_zero, Finset.filter_eq_empty_iff]
    intro i hi
    simp [h i (Finset.mem_range.1 hi)]
  have hfin : t.finished = 0 := by
    unfold Transfer.finished occupied
    rw [Finset.card_eq_zero, Finset.filter_eq_empty_iff]
    intro i hi
    simp [h i (Finset.mem_range.1 hi)]
  have hsum := t.finished_add_unfinished
  exact ⟨hinf, hfin, by omega⟩

theorem completeEmpty_keeps (is : List Nat) (hnodup : is.Nodup)
    (his : ∀ i ∈ is, i < t.size.toNat ∧ (t.items i).state ≠ .complete) (h : Balanced 0 .success t) :
    Keeps 0 .success t (completeEmpty is t) := by
  induction is generalizing t with
  | nil => exact h.keeps
  | cons i is ih =>
    obtain ⟨hi, hs⟩ := his i mem_cons_self
    obtain ⟨hnot, hnodup⟩ := nodup_cons.1 hnodup
    rw [completeEmpty]
    split_ifs with hz
    · obtain ⟨t', hcall, hb, hc, -, hitems⟩ := h.completeItem .success .success hi hs (by simp) (by rw [settle_success])
      rw [hcall, andThen_success]
      refine (ih hnodup ?_ hb).continues hc
      intro j hj
      have hji : j ≠ i := fun he => hnot (he ▸ hj)
      rw [hc.size, hitems j hji]
      exact his j (mem_cons_of_mem i hj)
    · exact ih hnodup (fun j hj => his j (mem_cons_of_mem i hj)) h

theorem Submitting.seal {n : Nat} {submit : Nat → SubmitContext} {tracker : Tracker}
    (h : Submitting n n submit groupId generation tracker) :
    (releaseGroupSeal (tracker.groups 0)).1 = .success ∧ Gate (releaseGroupSeal (tracker.groups 0)).2 n True true := by
  have hopen : (tracker.groups 0).state = .opened := by
    by_contra hne
    exact absurd (h.gate.shut.2 hne) (by simp)
  have hok : (releaseGroupSeal (tracker.groups 0)).1 = .success := by
    unfold releaseGroupSeal
    rw [if_neg h.gate.ident, if_neg (by simp [hopen])]
    split_ifs <;> rfl
  exact ⟨hok, (h.gate.seal hok).1⟩

theorem balanced_submitted {maxInFlight : UInt32} {tracker : Tracker} (hmax : maxInFlight ≠ 0) (hpos : 0 < t.size.toNat)
    (hs : Submitting t.size.toNat t.size.toNat (fun i => (initItem ops groupId generation i).submit) groupId generation
      tracker)
    (hitems : ∀ i < t.size.toNat, t.items i = initItem ops groupId generation i)
    (hcredit : t.credit = ⟨maxInFlight, 0⟩) (hrequest : t.request = ⟨.pending, t.size, .success⟩)
    (hcompleted : t.completed = 0) (hterminal : t.terminalResult = .success) (hlog : t.log = [])
    (htracker : t.tracker = { tracker with
      groups := update tracker.groups 0 (releaseGroupSeal (tracker.groups 0)).2 }) :
    Balanced 0 .success t := by
  have hqueued : ∀ i < t.size.toNat, (t.items i).state = .queued := by
    intro i hi
    rw [hitems i hi]
    rfl
  obtain ⟨hinf, hfin, hunf⟩ := counts_queued hqueued
  have hboard := hs.board fun i hi => fresh_initItem hi
  have hclean : Clean t.log = True := by
    rw [hlog]
    simp [Clean]
  have hsb : t.scoreboard = tracker.scoreboard := by rw [Transfer.scoreboard, htracker]
  have hnot : ∀ i < t.size.toNat, ¬ t.Done i := by
    intro i hi hd
    rw [Transfer.Done, hqueued i hi] at hd
    exact absurd hd (by simp)
  refine ⟨⟨by rw [hcredit]; exact hmax, by rw [hcredit]; exact Nat.zero_le _⟩, ?_, ?_, ?_, ?_, ?_, ?_, ?_, ?_, ?_, ?_⟩
  · rw [hcredit, hinf]
    rfl
  · rw [hcompleted, hfin]
    rfl
  · rw [hunf, hrequest]
    exact ⟨rfl, by rw [if_neg (by omega)]⟩
  · rw [hunf, hclean, Transfer.releaseGroup, htracker]
    dsimp only
    exact hs.seal.2
  · -- no item is done, so the board of the submissions is the board of the items
    rw [hsb]
    refine ⟨hboard.capacity, hboard.inFlight, fun i hi => (hboard.retired i hi).elim, ?_, ?_, ?_, ?_, ?_⟩
    · intro i hi
      rw [hitems i hi]
      exact hboard.generation i hi
    · intro i hi
      rw [hitems i hi]
      exact hboard.sequence i hi
    · intro i hi hle
      rw [hitems i hi]
      exact hboard.context i hi hle
    · intro i hi _ hd
      exact absurd hd (hnot i hi)
    · intro i hi hle _
      exact hboard.pending i hi hle id
  · intro hlt
    exact hnot _ hlt
  · intro i hi
    rw [hlog, hqueued i hi]
    rfl
  · rw [settle_success, hterminal, hlog]
    rfl
  · intro _
    rw [hclean, hrequest, hsb]
    exact ⟨trivial, rfl, hs.firstError⟩
  · intro before ops answer after heq
    rw [hlog] at heq
    exact absurd heq (by simp)

theorem transferInit_balanced {count maxInFlight maxPostBatch : UInt32}
    (h : (transferInit t ops count maxInFlight maxPostBatch groupId generation).1 = .success) :
    Balanced 0 .success (transferInit t ops count maxInFlight maxPostBatch groupId generation).2 ∧
      (transferInit t ops count maxInFlight maxPostBatch groupId generation).2.initialized = true ∧
      (transferInit t ops count maxInFlight maxPostBatch groupId generation).2.size = count ∧ count ≠ 0 := by
  unfold transferInit at h ⊢
  by_cases hbad : count = 0 ∨ maxInFlight = 0 ∨ maxPostBatch = 0 ∨ groupId = 0 ∨ t.initialized = true
  · rw [if_pos hbad] at h
    exact absurd h (by simp)
  rw [if_neg hbad]
  push Not at hbad
  obtain ⟨hcount, hmax, -, hid, -⟩ := hbad
  have hpos : 0 < count.toNat := Nat.pos_of_ne_zero fun hz => hcount (UInt32.toNat_inj.1 hz)
  have hcredit : creditInit maxInFlight = .ok ⟨maxInFlight, 0⟩ := by rw [creditInit, if_neg hmax]
  have hacq : requestCoreAcquire requestCoreInit = (.success, ⟨.pending, 0, .success⟩) := rfl
  have hadd : requestCoreAddPending ⟨.pending, 0, .success⟩ count = (.success, ⟨.pending, 0 + count, .success⟩) := by
    rw [requestCoreAddPending, if_neg (by simp [hcount]), if_neg (by simp)]
  have hgroup : releaseGroupInit groupId generation =
      .ok ⟨groupId, generation, .opened, 0, 0, false, .success⟩ := by
    rw [releaseGroupInit, if_neg hid]
  have hsb : CompletionScoreboard.init count generation 0 =
      .ok ⟨fun _ => completionEntryReset, count, 0, generation, 0, .success⟩ := by
    rw [CompletionScoreboard.init, if_neg (by simp [hcount, uint64Max])]
  simp only [hcredit, hacq, andThen_success, hadd, hgroup, hsb]
  have hgate : Gate ⟨groupId, generation, .opened, 0, 0, false, .success⟩ 0 True false := gate_init hgroup
  have hstart : Submitting count.toNat 0 (fun i => (initItem ops groupId generation i).submit) groupId generation
      ⟨⟨fun _ => completionEntryReset, count, 0, generation, 0, .success⟩,
        update t.tracker.groups 0 ⟨groupId, generation, .opened, 0, 0, false, .success⟩⟩ := by
    refine ⟨rfl, rfl, rfl, rfl, rfl, fun i hi => absurd hi (by omega), fun _ _ _ => rfl, ?_, ?_, ?_, ?_⟩
    all_goals
      dsimp only
      rw [update_self]
    exact hgate
    rfl
  obtain ⟨items, tracker, hcall, hs, hitems⟩ := submitItems_spec count.toNat (zero_add _)
    (t := { t with
      items := fun _ => emptyItem, size := count, maxPostBatch := maxPostBatch, submitted := 0, completed := 0,
      terminalResult := .success, log := [], credit := ⟨maxInFlight, 0⟩, request := ⟨.pending, 0 + count, .success⟩,
      tracker := ⟨⟨fun _ => completionEntryReset, count, 0, generation, 0, .success⟩,
        update t.tracker.groups 0 ⟨groupId, generation, .opened, 0, 0, false, .success⟩⟩ })
    hstart (fun i hi => absurd hi (by omega))
  rw [range_eq_range', hcall, andThen_success]
  simp only [Transfer.releaseGroup, hs.seal.1, andThen_success]
  obtain ⟨t', hout, hb, hc⟩ := completeEmpty_keeps (range' 0 count.toNat)
    (t := { t with
      items := items, size := count, maxPostBatch := maxPostBatch, submitted := 0, completed := 0,
      terminalResult := .success, log := [], credit := ⟨maxInFlight, 0⟩, request := ⟨.pending, 0 + count, .success⟩,
      tracker := { tracker with groups := update tracker.groups 0 (releaseGroupSeal (tracker.groups 0)).2 },
      initialized := true })
    nodup_range'
    (by
      intro i hi
      have hlt : i < count.toNat := by simpa using hi
      refine ⟨hlt, ?_⟩
      dsimp only
      rw [hitems i hlt]
      simp [initItem])
    (balanced_submitted hmax hpos hs hitems rfl (by rw [UInt32.zero_add]) rfl rfl rfl rfl)
  rw [hout]
  exact ⟨hb, hc.initialized, hc.size, hcount⟩

end

/-! ## The accounts over every run -/

/-- **The accounts of a transfer agree over every run**, whatever the backend answers to a sequence of progress calls. -/
theorem transfer_accounting {t : Transfer} {ops : Nat → TransferOp} {count maxInFlight maxPostBatch : UInt32}
    {groupId generation : UInt64}
    (hinit : (transferInit t ops count maxInFlight maxPostBatch groupId generation).1 = .success)
    (calls : List Answers) :
    let s := run (transferInit t ops count maxInFlight maxPostBatch groupId generation).2 calls
    (s.credit.inUse.toNat = s.inflight ∧ s.completed.toNat = s.finished ∧
      s.request.pending.toNat = count.toNat - s.completed.toNat ∧
      s.releaseGroup.pending.toNat = count.toNat - s.completed.toNat) ∧
    (s.terminalResult = firstError s.log ∧
      ∀ more, s.terminalResult ≠ .success → (run s more).terminalResult = s.terminalResult) ∧
    (∀ before posted answer after, s.log = before ++ .posted posted answer :: after → firstError before = .success) ∧
    ∃ status, transferQuery s = .ok status ∧ status.result = s.terminalResult ∧
      (status.done = true ↔ ∀ i < count.toNat, (s.items i).state = .complete) ∧
      (status.releaseAllowed = true → ∀ i < count.toNat, (s.items i).state = .complete ∧
        .completed i .success ∈ s.log ∧ ∀ result, .completed i result ∈ s.log → result = .success) := by
  intro s
  obtain ⟨hb0, hi0, hsize0, hcount⟩ := transferInit_balanced hinit
  have hpos : 0 < count.toNat := Nat.pos_of_ne_zero fun hz => hcount (UInt32.toNat_inj.1 hz)
  have hpos0 := hpos
  rw [← hsize0] at hpos0
  obtain ⟨hb, hc⟩ : Balanced 0 .success s ∧ Continues _ s := run_keeps hb0 hi0 hpos0 calls
  have hi : s.initialized = true := hc.initialized.trans hi0
  have hsize : s.size = count := hc.size.trans hsize0
  have hpos' : 0 < s.size.toNat := by rw [hsize]; exact hpos
  have hterm : s.terminalResult = firstError s.log := by rw [← hb.terminal, settle_success]
  have hsum := s.finished_add_unfinished
  have hcompleted := hb.completed
  rw [hsize] at hsum
  refine ⟨⟨hb.inUse, hcompleted, ?_, ?_⟩, ⟨hterm, ?_⟩, hb.silent, ?_⟩
  · rw [hb.request.pending]
    omega
  · rw [hb.gate.pending]
    omega
  · intro more hne
    obtain ⟨hb', hc'⟩ := run_keeps hb hi hpos' more
    obtain ⟨later, hlater⟩ := hc'.log
    rw [← settle_success (run s more).terminalResult, hb'.terminal, hlater, hterm]
    rw [hterm] at hne
    exact firstError_append hne later
  · obtain ⟨status, hq, hdone, hrel, hres, -⟩ := hb.query hi hpos'
    rw [← hsize]
    refine ⟨status, hq, hres, hdone, ?_⟩
    intro hallowed i hlt
    obtain ⟨hall, hclean⟩ := hrel hallowed
    refine ⟨hall i hlt, ?_, fun result hm => hclean i result hm⟩
    -- a complete item has one completion in the history
    have hstate : (s.items i).state = .complete := hall i hlt
    have hone := hb.outcome i hlt
    rw [if_pos hstate] at hone
    obtain ⟨e, hm, he⟩ := countP_pos_iff.1 (hone ▸ one_pos)
    cases e with
    | completed j result =>
      obtain rfl : j = i := by simpa [Event.completes] using he
      rw [← hclean j result hm]
      exact hm
    | tested _ _ _ => exact absurd he (by simp [Event.completes])
    | posted _ _ => exact absurd he (by simp [Event.completes])

def newTransfer : Transfer where
  items := fun _ => emptyItem
  size := 0
  tracker := ⟨⟨fun _ => completionEntryReset, 0, 0, 0, 0, .success⟩, fun _ => ⟨0, 0, .opened, 0, 0, false, .success⟩⟩
  credit := ⟨0, 0⟩
  request := requestCoreInit
  maxPostBatch := 0
  submitted := 0
  completed := 0
  terminalResult := .success
  initialized := false
  log := []

def threePages (i : Nat) : TransferOp := ⟨UInt64.ofNat i * 4096, UInt64.ofNat i * 4096, 4096, 1, 2, 0, 0, 0, 0, 1⟩

/-- The backend accepts one item and then completes it with an error. -/
def failingBackend : List Answers :=
  [⟨fun _ => (.inProgress, false), ⟨.success, fun _ => some 7, ⟨1, 1, .success⟩⟩⟩,
   ⟨fun _ => (.systemError, true), ⟨.success, fun _ => some 8, ⟨1, 1, .success⟩⟩⟩]

theorem transfer_accounting_three_pages :
    (transferInit newTransfer threePages 3 1 1 5 0).1 = .success ∧
    let s := run (transferInit newTransfer threePages 3 1 1 5 0).2 failingBackend
    s.terminalResult = .systemError ∧ s.inflight = 0 ∧ s.finished = 3 ∧ s.credit.inUse.toNat = s.inflight ∧
    ∃ status, transferQuery s = .ok status ∧
      (status.done = true ↔ ∀ i < (3 : UInt32).toNat, (s.items i).state = .complete) := by
  have hinit : (transferInit newTransfer threePages 3 1 1 5 0).1 = .success := by decide
  obtain ⟨⟨hcredit, -⟩, -, -, status, hq, -, hdone, -⟩ := transfer_accounting hinit failingBackend
  exact ⟨hinit, by decide, by decide, by decide, hcredit, status, hq, hdone⟩

end FlagCX.P2p
