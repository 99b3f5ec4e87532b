import FlagCX.P2p.Board

/-!
# The accounts of a transfer agree

* `firstError log` : the first error the backend reported, by its own answers.
* `Balanced reserve owed t` : the credits in use are the items in flight and `reserve` more, the counters of the transfer,
  its request core and its release group count the items, and the terminal result is the first error once `owed` is
  recorded. Each function of the engine keeps it.
* `transfer_accounting` : what this says after any sequence of calls.
-/

namespace FlagCX.P2p
open List Function Option

open Lib Net

/-! ## The first error -/

/-- The result as an error: `flagcxSuccess` and `flagcxInProgress` are none. -/
def asError (result : Result) : Option Result :=
  if result = .success ∨ result = .inProgress then none else some result

def Event.error : Event → Option Result
  | .tested _ result false => asError result
  | .tested _ result true => asError (normalizeDone result)
  | .posted ops answer =>
    if answer.callResult ≠ .success then asError answer.callResult
    else if malformedPost (UInt32.ofNat ops.length) answer.post then some .internalError
    else asError answer.post.result
  | .completed _ _ => none

def firstError (log : List Event) : Result := (log.findSome? Event.error).getD .success

/-- The terminal result after `result` was recorded. -/
def settle (terminal result : Result) : Result :=
  if terminal = .success then (asError result).getD .success else terminal

theorem settle_success (terminal : Result) : settle terminal .success = terminal := by
  unfold settle
  split_ifs with h
  · rw [h]
    rfl
  · rfl

theorem settle_of_ne {terminal : Result} (h : terminal ≠ .success) (result : Result) :
    settle terminal result = terminal := if_neg h

theorem settle_ne {result : Result} (hs : result ≠ .success) (hp : result ≠ .inProgress) (terminal : Result) :
    settle terminal result ≠ .success := by
  unfold settle asError
  split_ifs with h
  · simp_all
  · exact hs
  · exact h

theorem asError_ne {result r : Result} (h : asError result = some r) : r ≠ .success := by
  unfold asError at h
  split_ifs at h with hc
  obtain rfl := some.inj h
  exact fun hs => hc (.inl hs)

theorem Event.error_ne {e : Event} {r : Result} (h : e.error = some r) : r ≠ .success := by
  cases e with
  | tested item result done =>
    cases done with
    | false => exact asError_ne h
    | true => exact asError_ne h
  | posted ops answer =>
    simp only [Event.error] at h
    split_ifs at h with h1 h2
    · exact asError_ne h
    · obtain rfl := some.inj h
      simp
    · exact asError_ne h
  | completed item result => exact absurd h (by simp [Event.error])

theorem firstError_concat (log : List Event) (e : Event) :
    firstError (log ++ [e]) = if firstError log = .success then e.error.getD .success else firstError log := by
  unfold firstError
  rw [findSome?_append]
  cases h : log.findSome? Event.error with
  | none => simp
  | some r =>
    obtain ⟨e', -, he'⟩ := exists_of_findSome?_eq_some h
    have hne : r ≠ .success := Event.error_ne he'
    simp [hne]

theorem firstError_append {log : List Event} (h : firstError log ≠ .success) (more : List Event) :
    firstError (log ++ more) = firstError log := by
  unfold firstError at h ⊢
  rw [findSome?_append]
  cases hl : log.findSome? Event.error with
  | none => simp [hl] at h
  | some r => rfl

theorem recordTerminal_eq (t : Transfer) (result : Result) :
    recordTerminal t result = { t with terminalResult := settle t.terminalResult result } := by
  unfold recordTerminal settle asError
  by_cases ht : t.terminalResult = .success
  · by_cases h1 : result = .success
    · subst h1
      simp [← ht]
    · by_cases h2 : result = .inProgress
      · subst h2
        simp [← ht]
      · simp [ht, h1, h2]
  · simp [ht]

/-! ## The counts -/

variable {i : Nat}

namespace Transfer

def Done (t : Transfer) (i : Nat) : Prop := (t.items i).state = .complete

def inflight (t : Transfer) : Nat := occupied (fun item => item.state = .inflight) t.size.toNat t.items

def finished (t : Transfer) : Nat := occupied (fun item => item.state = .complete) t.size.toNat t.items

def unfinished (t : Transfer) : Nat := occupied (fun item => item.state ≠ .complete) t.size.toNat t.items

theorem finished_add_unfinished (t : Transfer) : t.finished + t.unfinished = t.size.toNat := by
  unfold finished unfinished occupied
  rw [Finset.card_filter_add_card_filter_not, Finset.card_range]

theorem inflight_pos {t : Transfer} (hi : i < t.size.toNat) (h : (t.items i).state = .inflight) : 0 < t.inflight := by
  exact occupied_pos _ hi h

theorem unfinished_pos {t : Transfer} (hi : i < t.size.toNat) (h : (t.items i).state ≠ .complete) : 0 < t.unfinished := by
  exact occupied_pos _ hi h

section

variable {item : TransferItem} (t t' : Transfer) (hsize : t'.size = t.size) (hitems : t'.items = update t.items i item)
  (hi : i < t.size.toNat)
include t t' hsize hitems hi

theorem counts_complete (hs : (t.items i).state ≠ .complete) (hc : item.state = .complete) :
    t'.finished = t.finished + 1 ∧ t'.unfinished + 1 = t.unfinished ∧
      t'.inflight + (if (t.items i).state = .inflight then 1 else 0) = t.inflight := by
  unfold finished unfinished inflight
  rw [hsize, hitems]
  refine ⟨occupied_update_fill _ hi hs hc, occupied_update_free _ hi hs (by simp [hc]), ?_⟩
  by_cases hf : (t.items i).state = .inflight
  · rw [if_pos hf]
    exact occupied_update_free _ hi hf (by simp [hc])
  · rw [if_neg hf]
    exact occupied_update_same (fun item : TransferItem => item.state = .inflight) (by simp [hf, hc])

theorem counts_accept (hs : (t.items i).state = .queued) (hf : item.state = .inflight) :
    t'.finished = t.finished ∧ t'.unfinished = t.unfinished ∧ t'.inflight = t.inflight + 1 := by
  unfold finished unfinished inflight
  rw [hsize, hitems]
  exact ⟨occupied_update_same _ (by simp [hs, hf]), occupied_update_same _ (by simp [hs, hf]),
    occupied_update_fill _ hi (by simp [hs]) hf⟩

end

theorem unfinished_eq_zero (t : Transfer) : t.unfinished = 0 ↔ ∀ i < t.size.toNat, t.Done i := by
  unfold unfinished occupied Done
  simp

end Transfer

def Event.completes (i : Nat) : Event → Bool
  | .completed j _ => j == i
  | _ => false

def Clean (log : List Event) : Prop := ∀ i result, Event.completed i result ∈ log → result = .success

/-- Nothing was posted after an error. -/
def Silent (log : List Event) : Prop :=
  ∀ before ops answer after, log = before ++ Event.posted ops answer :: after → firstError before = .success

/-- The accounts of a transfer. `reserve` credits are held for items about to be in flight; `owed` is the result that is
still to be recorded. -/
structure Balanced (reserve : Nat) (owed : Result) (t : Transfer) : Prop where
  credit : t.credit.Sound
  inUse : t.credit.inUse.toNat = t.inflight + reserve
  completed : t.completed.toNat = t.finished
  request : t.request.Counts t.unfinished
  gate : Gate t.releaseGroup t.unfinished (Clean t.log) true
  board : Board t.size.toNat (fun i => (t.items i).submit) t.Done t.scoreboard
  stopped : Stopped t.size.toNat t.Done t.scoreboard
  outcome : ∀ i < t.size.toNat, t.log.countP (Event.completes i) = if (t.items i).state = .complete then 1 else 0
  terminal : settle t.terminalResult owed = firstError t.log
  quiet : t.terminalResult = .success → Clean t.log ∧ t.request.result = .success ∧ t.scoreboard.firstError = .success
  silent : Silent t.log

/-- What no function of the engine changes, and that the history only grows. -/
structure Continues (t t' : Transfer) : Prop where
  size : t'.size = t.size
  initialized : t'.initialized = t.initialized
  log : ∃ more, t'.log = t.log ++ more

theorem Continues.refl (t : Transfer) : Continues t t := ⟨rfl, rfl, [], (append_nil _).symm⟩

theorem Continues.trans {t₁ t₂ t₃ : Transfer} (h : Continues t₁ t₂) (h' : Continues t₂ t₃) : Continues t₁ t₃ := by
  obtain ⟨more, hm⟩ := h.log
  obtain ⟨more', hm'⟩ := h'.log
  exact ⟨h'.size.trans h.size, h'.initialized.trans h.initialized, more ++ more', by rw [hm', hm, append_assoc]⟩

theorem Silent.concat {log : List Event} (h : Silent log) {e : Event}
    (he : ∀ ops answer, e = .posted ops answer → firstError log = .success) : Silent (log ++ [e]) := by
  intro before ops answer after heq
  rcases eq_nil_or_concat after with rfl | ⟨after, last, rfl⟩
  · have hsplit := append_inj' heq rfl
    rw [← hsplit.1]
    exact he ops answer (cons.inj hsplit.2).1
  · rw [concat_eq_append, ← cons_append, ← append_assoc] at heq
    exact h before ops answer after (append_inj' heq rfl).1

/-! ## Completing an item -/

section
variable {reserve : Nat} {owed result : Result} {t : Transfer}

theorem Balanced.record (h : Balanced reserve result t) : Balanced reserve .success (recordTerminal t result) := by
  have hterm := h.terminal
  rw [recordTerminal_eq]
  refine ⟨h.credit, h.inUse, h.completed, h.request, h.gate, h.board, h.stopped, h.outcome, ?_, ?_, h.silent⟩
  · rw [settle_success]
    exact hterm
  · intro hs
    by_cases ht : t.terminalResult = .success
    · exact h.quiet ht
    · rw [settle_of_ne ht] at hs
      exact absurd hs ht

theorem Balanced.owe (h : Balanced reserve .success t) (ht : t.terminalResult ≠ .success) (result : Result) :
    Balanced reserve result t := by
  have hterm := h.terminal
  rw [settle_success] at hterm
  exact { h with terminal := by rw [settle_of_ne ht]; exact hterm }

theorem completeItem_eq (h : Balanced reserve owed t) (hi : i < t.size.toNat)
    (hs : (t.items i).state ≠ .complete) (hr : result ≠ .inProgress) :
    ∃ credit tracker request n,
      completeItem t i result =
        (.success, finishItem { t with credit := credit, tracker := tracker, request := request } i result) ∧
      n + 1 = t.unfinished ∧ credit.Sound ∧
      credit.inUse.toNat + (if (t.items i).state = .inflight then 1 else 0) = t.credit.inUse.toNat ∧
      Board t.size.toNat (fun j => (t.items j).submit) (fun j => t.Done j ∨ j = i) tracker.scoreboard ∧
      Stopped t.size.toNat (fun j => t.Done j ∨ j = i) tracker.scoreboard ∧
      tracker.scoreboard.firstError =
        (if result ≠ .success ∧ t.scoreboard.firstError = .success then result else t.scoreboard.firstError) ∧
      Gate (tracker.groups 0) n (Clean t.log ∧ result = .success) true ∧ request.Counts n ∧
      request.result = (requestCoreRecordResult t.request result).result := by
  obtain ⟨n, hn⟩ : ∃ n, t.unfinished = n + 1 := Nat.exists_eq_add_one.2 (Transfer.unfinished_pos hi hs)
  have hcredit : ∃ credit, (if (t.items i).state = .inflight then creditRelease t.credit 1 else (.success, t.credit)) =
      (Result.success, credit) ∧ credit.Sound ∧
      credit.inUse.toNat + (if (t.items i).state = .inflight then 1 else 0) = t.credit.inUse.toNat := by
    by_cases hf : (t.items i).state = .inflight
    · have hpos := Transfer.inflight_pos hi hf
      have hheld : (1 : UInt32).toNat ≤ t.credit.inUse.toNat := by
        rw [h.inUse, UInt32.toNat_one]
        omega
      obtain ⟨hrel, hnat⟩ := h.credit.release (by decide) hheld
      have hwithin := h.credit.within
      rw [UInt32.toNat_one] at hnat hheld
      refine ⟨{ t.credit with inUse := t.credit.inUse - 1 }, ?_, ⟨h.credit.capacity, ?_⟩, ?_⟩
      · rw [if_pos hf, hrel]
      · dsimp only
        omega
      · rw [if_pos hf]
        dsimp only
        omega
    · refine ⟨t.credit, by rw [if_neg hf], h.credit, ?_⟩
      rw [if_neg hf, add_zero]
  obtain ⟨credit, hcall, hsound, hin⟩ := hcredit
  have hgate := h.gate
  have hreq := h.request
  rw [hn] at hgate hreq
  obtain ⟨advanced, out, htrack, hb, hst, hf, hg⟩ := h.board.trackCompletion t.tracker.groups hi hs hgate hr
  obtain ⟨hok, hcounts, hres⟩ := hreq.complete result
  refine ⟨credit, out, (requestCoreComplete t.request 1 result).2, n, ?_, hn.symm, hsound, hin, hb, hst, hf, hg,
    hcounts, hres⟩
  have htrack' : trackCompletion t.tracker (t.items i).submit result = (.success, advanced, out) := htrack
  unfold completeItem
  rw [if_neg (by omega), if_neg hs]
  simp only [hcall, andThen_success, htrack']
  rw [← Prod.mk.eta (p := requestCoreComplete t.request 1 result), hok, andThen_success]

theorem clean_concat (log : List Event) (i : Nat) (result : Result) :
    Clean (log ++ [.completed i result]) ↔ Clean log ∧ result = .success := by
  constructor
  · intro h
    refine ⟨fun j r hm => h j r (mem_append_left _ hm), h i result ?_⟩
    exact mem_append_right _ (mem_singleton_self _)
  · intro h j r hm
    rcases mem_append.1 hm with hm | hm
    · exact h.1 j r hm
    · cases mem_singleton.1 hm
      exact h.2

theorem Balanced.completeItem (h : Balanced reserve owed t) (result left : Result) (hi : i < t.size.toNat)
    (hs : (t.items i).state ≠ .complete) (hr : result ≠ .inProgress)
    (hleft : settle (settle t.terminalResult result) left = settle t.terminalResult owed) :
    ∃ t', completeItem t i result = (.success, t') ∧ Balanced reserve left t' ∧ Continues t t' ∧
      t'.terminalResult = settle t.terminalResult result ∧ ∀ j ≠ i, t'.items j = t.items j := by
  obtain ⟨credit, tracker, request, n, hcall, hn, hsound, hin, hb, hst, hf, hg, hcounts, hres⟩ := completeItem_eq h hi hs hr
  refine ⟨_, hcall, ?_, ?_, ?_, ?_⟩
  all_goals rw [finishItem, recordTerminal_eq]
  · -- the counts of the new state, from those of `t`
    obtain ⟨hfin, hunf, hinf⟩ := Transfer.counts_complete t
      { t with items := update t.items i { t.items i with request := none, state := .complete } }
      rfl rfl hi hs rfl
    have hsubmit : (fun j => (update t.items i { t.items i with request := none, state := .complete } j).submit) =
        fun j => (t.items j).submit := by
      funext j
      by_cases hj : j = i
      · subst hj
        rw [update_self]
      · rw [update_of_ne hj]
    have hdone : (fun j => (update t.items i
          { t.items i with request := none, state := .complete } j).state = .complete) =
        fun j => t.Done j ∨ j = i := by
      funext j
      by_cases hj : j = i
      · subst hj
        simp
      · simp [hj, Transfer.Done]
    have hunf' : n = Transfer.unfinished
        { t with items := update t.items i { t.items i with request := none, state := .complete } } := by
      omega
    refine ⟨hsound, ?_, ?_, ?_, ?_, ?_, ?_, ?_, ?_, ?_, ?_⟩
    · have := h.inUse
      change credit.inUse.toNat = Transfer.inflight
        { t with items := update t.items i { t.items i with request := none, state := .complete } } + reserve
      omega
    · have hle := t.finished_add_unfinished
      have hsize := t.size.toNat_lt
      have hc := h.completed
      change (t.completed + 1).toNat = Transfer.finished
        { t with items := update t.items i { t.items i with request := none, state := .complete } }
      rw [hfin, UInt32.toNat_add, UInt32.toNat_one]
      omega
    · rw [hunf'] at hcounts
      exact hcounts
    · rw [hunf', ← propext (clean_concat t.log i result)] at hg
      exact hg
    · rw [← hsubmit, ← hdone] at hb
      exact hb
    · rw [← hdone] at hst
      exact hst
    · intro j hj
      change (t.log ++ [Event.completed i result]).countP (Event.completes j) = if (update t.items i
        { t.items i with request := none, state := .complete } j).state = .complete then 1 else 0
      have ho := h.outcome j hj
      rw [countP_append, ho]
      by_cases hji : j = i
      · subst hji
        simp [hs, Event.completes]
      · simp [hji, Event.completes, Ne.symm hji]
    · have hterm := h.terminal
      have hfirst : firstError (t.log ++ [.completed i result]) = firstError t.log := by
        rw [firstError_concat]
        split_ifs with hz
        · rw [hz]
          rfl
        · rfl
      exact (hleft.trans hterm).trans hfirst.symm
    · intro hq
      have ht : t.terminalResult = .success := by
        by_contra hne
        exact hne ((settle_of_ne hne result).symm.trans hq)
      have hok : result = .success := by
        by_contra hne
        exact settle_ne hne hr t.terminalResult hq
      obtain ⟨hclean, hreq, hsb⟩ := h.quiet ht
      refine ⟨(clean_concat _ _ _).2 ⟨hclean, hok⟩, ?_, ?_⟩
      · rw [hok] at hres
        exact hres.trans hreq
      · rw [hok] at hf
        exact (hf.trans (if_neg (by simp))).trans hsb
    · exact h.silent.concat (by simp)
  · exact ⟨rfl, rfl, _, rfl⟩
  · rfl
  · intro j hj
    exact update_of_ne hj _ _

/-- The call succeeds, keeps the accounts and continues `t`. -/
def Keeps (reserve : Nat) (owed : Result) (t : Transfer) (out : Result × Transfer) : Prop :=
  ∃ t', out = (.success, t') ∧ Balanced reserve owed t' ∧ Continues t t'

theorem Balanced.keeps (h : Balanced reserve owed t) : Keeps reserve owed t (.success, t) := ⟨t, rfl, h, Continues.refl t⟩

variable {out : Result × Transfer}

theorem Keeps.continues {t₀ : Transfer} (h : Keeps reserve owed t out)
    (hc : Continues t₀ t) : Keeps reserve owed t₀ out := by
  obtain ⟨t', ho, hb, hc'⟩ := h
  exact ⟨t', ho, hb, hc.trans hc'⟩

theorem Keeps.andThen (h : Keeps reserve owed t out) {reserve' : Nat} {owed' : Result} {next : Transfer → Result × Transfer}
    (hnext : ∀ t', Balanced reserve owed t' → Continues t t' → Keeps reserve' owed' t' (next t')) :
    Keeps reserve' owed' t (andThen out next) := by
  obtain ⟨t', rfl, hb, hc⟩ := h
  rw [andThen_success]
  exact (hnext t' hb hc).continues hc

/-! ## Failing what is queued -/

variable {is : List Nat}

theorem failQueuedFrom_keeps (hp : result ≠ .inProgress)
    (his : ∀ i ∈ is, i < t.size.toNat) (h : Balanced reserve .success t) (ht : t.terminalResult ≠ .success) :
    Keeps reserve .success t (failQueuedFrom result is t) := by
  induction is generalizing t with
  | nil => exact h.keeps
  | cons i is ih =>
    have htail : ∀ j ∈ is, j < t.size.toNat := fun j hj => his j (mem_cons_of_mem i hj)
    rw [failQueuedFrom]
    by_cases hq : (t.items i).state = .queued
    · rw [if_neg (not_not.2 hq)]
      have hleft : settle (settle t.terminalResult result) .success = settle t.terminalResult .success := by
        rw [settle_of_ne ht]
      obtain ⟨t', hcall, hb, hc, hterm, -⟩ := h.completeItem _ _ (his i mem_cons_self) (by simp [hq]) hp hleft
      rw [hcall, andThen_success]
      rw [settle_of_ne ht] at hterm
      have hrest := ih (t := t') (by rw [hc.size]; exact htail) hb (by rw [hterm]; exact ht)
      exact hrest.continues hc
    · rw [if_pos hq]
      exact ih htail h ht

theorem recordTerminal_continues (t : Transfer) (result : Result) : Continues t (recordTerminal t result) := by
  rw [recordTerminal_eq]
  exact ⟨rfl, rfl, [], (append_nil _).symm⟩

theorem Balanced.failQueued (h : Balanced reserve result t) (hs : result ≠ .success) (hp : result ≠ .inProgress) :
    Keeps reserve .success t (failQueued t result) := by
  have hne : (recordTerminal t result).terminalResult ≠ .success := by
    rw [recordTerminal_eq]
    exact settle_ne hs hp t.terminalResult
  have hc := recordTerminal_continues t result
  have hrange : ∀ i ∈ range t.size.toNat, i < (recordTerminal t result).size.toNat := by
    intro i hi
    rw [hc.size]
    exact mem_range.1 hi
  exact (failQueuedFrom_keeps hp hrange h.record hne).continues hc

/-! ## Polling -/

theorem Balanced.note (h : Balanced reserve .success t) {e : Event} (he : e.error = asError owed)
    (hcomp : ∀ i, e.completes i = false) (hpost : ∀ ops answer, e = .posted ops answer → t.terminalResult = .success) :
    Balanced reserve owed (t.note e) := by
  have hterm := h.terminal
  rw [settle_success] at hterm
  have hmem : ∀ i r, Event.completed i r ∈ t.log ++ [e] ↔ Event.completed i r ∈ t.log := by
    intro i r
    refine ⟨fun hm => (mem_append.1 hm).resolve_right ?_, mem_append_left _⟩
    intro hm
    have hc := hcomp i
    rw [← mem_singleton.1 hm] at hc
    simp [Event.completes] at hc
  have hclean : Clean (t.log ++ [e]) = Clean t.log := by simp only [Clean, hmem]
  refine ⟨h.credit, h.inUse, h.completed, h.request, ?_, h.board, h.stopped, ?_, ?_, ?_, ?_⟩
  · change Gate t.releaseGroup t.unfinished (Clean (t.log ++ [e])) true
    rw [hclean]
    exact h.gate
  · intro i hi
    have hone : [e].countP (Event.completes i) = 0 := by simp [hcomp i]
    change (t.log ++ [e]).countP (Event.completes i) = _
    rw [countP_append, h.outcome i hi, hone, add_zero]
    rfl
  · change settle t.terminalResult owed = firstError (t.log ++ [e])
    rw [firstError_concat, ← hterm, he]
    rfl
  · intro hs
    obtain ⟨hc, hr⟩ := h.quiet hs
    refine ⟨?_, hr⟩
    change Clean (t.log ++ [e])
    rw [hclean]
    exact hc
  · exact h.silent.concat fun ops answer heq => by rw [← hterm]; exact hpost ops answer heq

theorem note_continues (t : Transfer) (e : Event) : Continues t (t.note e) := ⟨rfl, rfl, _, rfl⟩

theorem Balanced.paid (h : Balanced reserve owed t) (ho : asError owed = none) : Balanced reserve .success t := by
  have hterm := h.terminal
  have hsettle : settle t.terminalResult owed = t.terminalResult := by
    unfold settle
    rw [ho]
    split_ifs with hs
    · exact hs.symm
    · rfl
  exact { h with terminal := by rw [settle_success, ← hterm, hsettle] }

theorem asError_eq_none : asError result = none ↔ result = .success ∨ result = .inProgress := by
  unfold asError
  split_ifs with h
  · simp [h]
  · simp [h]

theorem normalizeDone_ne (result : Result) : normalizeDone result ≠ .inProgress := by
  unfold normalizeDone
  split_ifs with h
  · simp
  · exact h

theorem Balanced.pollItem (h : Balanced reserve .success t) (hi : i < t.size.toNat) (answer : Result × Bool) :
    Keeps reserve .success t (pollItem t i answer) := by
  obtain ⟨result, done⟩ := answer
  unfold P2p.pollItem
  by_cases hf : (t.items i).state = .inflight
  swap
  · rw [if_pos hf]
    exact h.keeps
  rw [if_neg (not_not.2 hf)]
  have hc := note_continues t (.tested i result done)
  have hopen : ((t.note (.tested i result done)).items i).state ≠ .complete := by
    change (t.items i).state ≠ .complete
    simp [hf]
  cases done with
  | false =>
    have hn : Balanced reserve result (t.note (.tested i result false)) := h.note rfl (fun _ => rfl) (by simp)
    simp only [if_true]
    by_cases he : result ≠ .success ∧ result ≠ .inProgress
    · -- a failed poll leaves the request in flight and fails what is queued
      rw [if_pos he]
      have hne : (recordTerminal (t.note (.tested i result false)) result).terminalResult ≠ .success := by
        rw [recordTerminal_eq]
        exact settle_ne he.1 he.2 _
      have hfail := (hn.record.owe hne result).failQueued he.1 he.2
      exact hfail.continues (hc.trans (recordTerminal_continues _ _))
    · rw [if_neg he]
      have hnone : asError result = none := asError_eq_none.2 (by tauto)
      exact ((hn.paid hnone).keeps).continues hc
  | true =>
    have hn : Balanced reserve (normalizeDone result) (t.note (.tested i result true)) := h.note rfl (fun _ => rfl) (by simp)
    simp only [Bool.true_eq_false, if_false]
    by_cases he : normalizeDone result = .success
    · rw [if_neg (not_not.2 he)]
      rw [he] at hn
      obtain ⟨t', hcall, hb, hc', -⟩ := hn.completeItem .success _ hi hopen (by simp)
        (by rw [settle_success, settle_success])
      exact ⟨t', hcall, hb, hc.trans hc'⟩
    · rw [if_pos he]
      obtain ⟨t', hcall, hb, hc', hterm, -⟩ := hn.completeItem _ _ hi hopen (normalizeDone_ne result) (settle_success _)
      rw [hcall, andThen_success]
      have hne : t'.terminalResult ≠ .success := by
        rw [hterm]
        exact settle_ne he (normalizeDone_ne result) _
      exact ((hb.owe hne _).failQueued he (normalizeDone_ne result)).continues (hc.trans hc')

theorem pollInflightFrom_keeps (test : Nat → Result × Bool) (his : ∀ i ∈ is, i < t.size.toNat)
    (h : Balanced reserve .success t) : Keeps reserve .success t (pollInflightFrom test is t) := by
  induction is generalizing t with
  | nil => exact h.keeps
  | cons i is ih =>
    refine (h.pollItem (his i mem_cons_self) (test i)).andThen fun t' hb hc => ih ?_ hb
    intro j hj
    rw [hc.size]
    exact his j (mem_cons_of_mem i hj)

theorem Balanced.pollInflight (h : Balanced reserve .success t) (test : Nat → Result × Bool) :
    Keeps reserve .success t (pollInflight t test) :=
  pollInflightFrom_keeps test (fun _ hi => mem_range.1 hi) h

/-! ## Posting -/

theorem Balanced.acquire (h : Balanced 0 owed t) {count : UInt32} (hpos : count ≠ 0)
    (hfit : t.credit.inUse.toNat + count.toNat ≤ t.credit.capacity.toNat) :
    ∃ credit, creditAcquire t.credit count = (.success, credit) ∧ Balanced count.toNat owed { t with credit := credit } := by
  obtain ⟨hcall, hnat⟩ := h.credit.acquire hpos hfit
  have hin := h.inUse
  refine ⟨_, hcall, { h with credit := ⟨h.credit.capacity, ?_⟩, inUse := ?_ }⟩
  · dsimp only
    omega
  · change (t.credit.inUse + count).toNat = t.inflight + count.toNat
    omega

theorem Balanced.release (h : Balanced reserve owed t) {count : UInt32} (hpos : count ≠ 0) (hheld : count.toNat ≤ reserve) :
    ∃ credit, creditRelease t.credit count = (.success, credit) ∧
      Balanced (reserve - count.toNat) owed { t with credit := credit } := by
  have hin := h.inUse
  have hwithin := h.credit.within
  obtain ⟨hcall, hnat⟩ := h.credit.release hpos (by omega)
  refine ⟨_, hcall, { h with credit := ⟨h.credit.capacity, ?_⟩, inUse := ?_ }⟩
  · dsimp only
    omega
  · change (t.credit.inUse - count).toNat = t.inflight + (reserve - count.toNat)
    omega

theorem Balanced.accept (h : Balanced (reserve + 1) owed t) (hi : i < t.size.toNat)
    (hq : (t.items i).state = .queued) (request : Option Nat) (submitted : UInt32) :
    Balanced reserve owed { t with
      items := update t.items i { t.items i with request := request, state := .inflight },
      submitted := submitted } := by
  obtain ⟨hfin, hunf, hinf⟩ := Transfer.counts_accept t
    { t with
      items := update t.items i { t.items i with request := request, state := .inflight },
      submitted := submitted }
    rfl rfl hi hq rfl
  have hstate : ∀ j, (update t.items i { t.items i with request := request, state := .inflight } j).state =
      .complete ↔ (t.items j).state = .complete := by
    intro j
    by_cases hj : j = i
    · subst hj
      simp [hq]
    · rw [update_of_ne hj]
  have hsubmit : (fun j =>
      (update t.items i { t.items i with request := request, state := .inflight } j).submit) =
        fun j => (t.items j).submit := by
    funext j
    by_cases hj : j = i
    · subst hj
      rw [update_self]
    · rw [update_of_ne hj]
  have hdone : (fun j => (update t.items i
      { t.items i with request := request, state := .inflight } j).state = .complete) = t.Done := by
    funext j
    exact propext (hstate j)
  have hin := h.inUse
  have hboard := h.board
  have hstop := h.stopped
  rw [← hsubmit, ← hdone] at hboard
  rw [← hdone] at hstop
  refine ⟨h.credit, ?_, h.completed.trans hfin.symm, ?_, ?_, hboard, hstop, ?_, h.terminal, h.quiet, h.silent⟩
  · rw [hinf]
    dsimp only
    omega
  · rw [hunf]
    exact h.request
  · rw [hunf]
    exact h.gate
  · intro j hj
    rw [h.outcome j hj]
    simp only [hstate j]

theorem acceptItems_keeps (requests : Nat → Option Nat) (k : Nat) (hnodup : is.Nodup)
    (his : ∀ i ∈ is, i < t.size.toNat ∧ (t.items i).state = .queued) (h : Balanced is.length owed t) :
    Keeps 0 owed t (acceptItems requests k is t) := by
  induction is generalizing t k with
  | nil => exact h.keeps
  | cons i is ih =>
    obtain ⟨hi, hq⟩ := his i mem_cons_self
    obtain ⟨hnot, hnodup⟩ := nodup_cons.1 hnodup
    have ha : Balanced is.length owed _ := Balanced.accept h hi hq (requests k) (t.submitted + 1)
    have hothers : ∀ j ∈ is, update t.items i { t.items i with request := requests k, state := .inflight } j =
        t.items j := by
      intro j hj
      have hji : j ≠ i := fun he => hnot (he ▸ hj)
      exact update_of_ne hji _ _
    rw [acceptItems]
    by_cases hr : requests k = none
    · rw [if_pos hr]
      obtain ⟨t', hcall, hb, hc, -, hitems⟩ := ha.completeItem .success owed hi (by simp) (by simp) (by rw [settle_success])
      have hcall' : completeItem
          { t.setItem i { t.items i with request := requests k, state := .inflight } with
            submitted := t.submitted + 1 } i .success = (.success, t') := hcall
      have hrest := ih (t := t') (k + 1) hnodup ?_ hb
      · simp only [Transfer.setItem] at hcall' ⊢
        rw [hcall', andThen_success]
        exact hrest.continues ⟨hc.size, hc.initialized, hc.log⟩
      · intro j hj
        have hji : j ≠ i := fun he => hnot (he ▸ hj)
        rw [hc.size, hitems j hji]
        dsimp only
        rw [hothers j hj]
        exact his j (mem_cons_of_mem i hj)
    · rw [if_neg hr]
      have hrest := ih (t := { t with
          items := update t.items i { t.items i with request := requests k, state := .inflight },
          submitted := t.submitted + 1 }) (k + 1) hnodup ?_ ha
      · exact hrest.continues ⟨rfl, rfl, [], (append_nil _).symm⟩
      · intro j hj
        dsimp only
        rw [hothers j hj]
        exact his j (mem_cons_of_mem i hj)

theorem toInt_toUInt32 {a : Int32} (h : 0 ≤ a.toInt) : a.toInt = a.toUInt32.toNat := by
  have hlt := a.toUInt32.toNat_lt
  have he : a.toInt = (a.toUInt32.toNat : Int).bmod (2 ^ 32) := BitVec.toInt_eq_toNat_bmod a.toBitVec
  rw [he] at h ⊢
  rw [Int.bmod_def] at h ⊢
  split_ifs at h ⊢ <;> omega

theorem toInt_toInt32_le (r : UInt32) : r.toInt32.toInt ≤ r.toNat := by
  have he : r.toInt32.toInt = (r.toNat : Int).bmod (2 ^ 32) := BitVec.toInt_eq_toNat_bmod r.toBitVec
  rw [he, Int.bmod_def]
  split_ifs <;> omega

theorem accepted_le {requested : UInt32} {post : PostResult} (h : ¬ malformedPost requested post) :
    post.accepted.toUInt32.toNat ≤ requested.toNat := by
  unfold malformedPost at h
  push Not at h
  obtain ⟨-, h0, h1⟩ := h
  rw [Int32.not_lt, Int32.le_iff_toInt_le] at h0 h1
  have ha := toInt_toUInt32 h0
  have hr := toInt_toInt32_le requested
  omega

theorem queuedIndices_spec (t : Transfer) (limit : Nat) :
    (queuedIndices t limit).Nodup ∧ (queuedIndices t limit).length ≤ limit ∧
      ∀ i ∈ queuedIndices t limit, i < t.size.toNat ∧ (t.items i).state = .queued := by
  refine ⟨?_, length_take_le _ _, ?_⟩
  · exact (nodup_range.filter _).sublist (take_sublist _ _)
  · intro i hi
    have hm := mem_of_mem_take hi
    rw [mem_filter, mem_range] at hm
    exact ⟨hm.1, of_decide_eq_true hm.2⟩

theorem toNat_min_le (a b : UInt32) : (min a b).toNat ≤ a.toNat := by
  change (if a ≤ b then a else b).toNat ≤ a.toNat
  split_ifs with h
  · exact le_rfl
  · exact (UInt32.lt_iff_toNat_lt.1 (UInt32.not_le.1 h)).le

theorem Balanced.posted (h : Balanced reserve .success t) (ht : t.terminalResult = .success) {ops : List TransferOp}
    {answer : PostAnswer} (he : (Event.posted ops answer).error = asError owed) :
    Balanced reserve owed (t.note (.posted ops answer)) :=
  h.note he (fun _ => rfl) fun _ _ _ => ht

theorem settlePost_keeps {indices : List Nat} {requested : UInt32} (answer : PostAnswer) (ops : List TransferOp)
    (h : Balanced requested.toNat .success t) (ht : t.terminalResult = .success) (hpos : requested ≠ 0)
    (hops : UInt32.ofNat ops.length = requested) (hlen : indices.length = requested.toNat) (hnodup : indices.Nodup)
    (his : ∀ i ∈ indices, i < t.size.toNat ∧ (t.items i).state = .queued) :
    Keeps 0 .success t (settlePost (t.note (.posted ops answer)) indices requested answer) := by
  have hc := note_continues t (.posted ops answer)
  have herr : (Event.posted ops answer).error =
      if answer.callResult ≠ .success then asError answer.callResult
      else if malformedPost requested answer.post then some .internalError else asError answer.post.result := by
    rw [← hops]
    rfl
  unfold settlePost
  by_cases hcall : answer.callResult = .success
  swap
  · -- the call itself failed: nothing was accepted
    rw [if_pos hcall]
    rw [if_pos hcall] at herr
    obtain ⟨credit, hrel, hb⟩ := (h.posted ht herr).release hpos le_rfl
    rw [Nat.sub_self] at hb
    have hc' : Continues t { t.note (.posted ops answer) with credit := credit } := ⟨hc.size, hc.initialized, hc.log⟩
    simp only [hrel]
    by_cases hp : answer.callResult = .inProgress
    · rw [if_pos hp]
      exact ((hb.paid (asError_eq_none.2 (.inr hp))).keeps).continues hc'
    · rw [if_neg hp]
      exact (hb.failQueued hcall hp).continues hc'
  rw [if_neg (not_not.2 hcall)]
  rw [if_neg (not_not.2 hcall)] at herr
  by_cases hbad : malformedPost requested answer.post
  · rw [if_pos hbad]
    rw [if_pos hbad] at herr
    have hposted : Balanced requested.toNat .internalError (t.note (.posted ops answer)) := h.posted ht herr
    obtain ⟨credit, hrel, hb⟩ := hposted.release hpos le_rfl
    rw [Nat.sub_self] at hb
    have hc' : Continues t { t.note (.posted ops answer) with credit := credit } := ⟨hc.size, hc.initialized, hc.log⟩
    simp only [hrel]
    exact (hb.failQueued (by simp) (by simp)).continues hc'
  rw [if_neg hbad]
  rw [if_neg hbad] at herr
  have hn := h.posted ht herr
  have hle := accepted_le hbad
  -- the credits of the items that were not accepted go back first
  have hcredit : ∃ credit, (if answer.post.accepted.toUInt32 < requested then
        creditRelease (t.note (.posted ops answer)).credit (requested - answer.post.accepted.toUInt32)
      else (.success, (t.note (.posted ops answer)).credit)) = (Result.success, credit) ∧
      Balanced answer.post.accepted.toUInt32.toNat answer.post.result
        { t.note (.posted ops answer) with credit := credit } := by
    by_cases hlt : answer.post.accepted.toUInt32 < requested
    · have hsub : (requested - answer.post.accepted.toUInt32).toNat =
          requested.toNat - answer.post.accepted.toUInt32.toNat :=
        UInt32.toNat_sub_of_le _ _ (UInt32.le_iff_toNat_le.2 hle)
      have hlt' := UInt32.lt_iff_toNat_lt.1 hlt
      have hne : requested - answer.post.accepted.toUInt32 ≠ 0 := by
        intro hz
        rw [hz, UInt32.toNat_zero] at hsub
        omega
      obtain ⟨credit, hrel, hb⟩ := hn.release hne (by omega)
      refine ⟨credit, by rw [if_pos hlt, hrel], ?_⟩
      rw [hsub, Nat.sub_sub_self hle] at hb
      exact hb
    · have heq : answer.post.accepted.toUInt32.toNat = requested.toNat :=
        le_antisymm hle (Nat.le_of_not_lt fun hl => hlt (UInt32.lt_iff_toNat_lt.2 hl))
      refine ⟨(t.note (.posted ops answer)).credit, by rw [if_neg hlt], ?_⟩
      rw [heq]
      exact hn
  obtain ⟨credit, hrel, hb⟩ := hcredit
  have hc' : Continues t { t.note (.posted ops answer) with credit := credit } := ⟨hc.size, hc.initialized, hc.log⟩
  simp only [hrel, andThen_success]
  have hacc : Keeps 0 answer.post.result { t.note (.posted ops answer) with credit := credit }
      (acceptItems answer.requests 0 (indices.take answer.post.accepted.toUInt32.toNat)
        { t.note (.posted ops answer) with credit := credit }) := by
    refine acceptItems_keeps answer.requests 0 (hnodup.sublist (take_sublist _ _)) ?_ ?_
    · intro i hi
      exact his i (mem_of_mem_take hi)
    · rw [length_take, hlen, min_eq_left hle]
      exact hb
  refine (hacc.andThen fun t' hb' _ => ?_).continues hc'
  by_cases he : answer.post.result ≠ .success ∧ answer.post.result ≠ .inProgress
  · rw [if_pos he]
    exact hb'.failQueued he.1 he.2
  · rw [if_neg he]
    exact (hb'.paid (asError_eq_none.2 (by tauto))).keeps

theorem Balanced.postQueued (h : Balanced 0 .success t) (answer : PostAnswer) :
    Keeps 0 .success t (postQueued t answer) := by
  unfold P2p.postQueued
  by_cases ht : t.terminalResult = .success
  swap
  · rw [if_pos ht]
    exact h.keeps
  rw [if_neg (not_not.2 ht)]
  obtain ⟨hav, hnat⟩ := h.credit.available
  simp only [hav]
  by_cases hz : t.credit.capacity - t.credit.inUse = 0
  · rw [if_pos hz]
    exact h.keeps
  rw [if_neg hz]
  obtain ⟨hnodup, hlen, his⟩ := queuedIndices_spec t (min (t.credit.capacity - t.credit.inUse) t.maxPostBatch).toNat
  generalize queuedIndices t (min (t.credit.capacity - t.credit.inUse) t.maxPostBatch).toNat = indices at hnodup hlen his ⊢
  by_cases hnil : indices = []
  · rw [if_pos hnil]
    exact h.keeps
  rw [if_neg hnil]
  have hmin := toNat_min_le (t.credit.capacity - t.credit.inUse) t.maxPostBatch
  have hcap := t.credit.capacity.toNat_lt
  have hwithin := h.credit.within
  have hcount : (UInt32.ofNat indices.length).toNat = indices.length := by
    rw [UInt32.toNat_ofNat']
    exact Nat.mod_eq_of_lt (by omega)
  have hpos : UInt32.ofNat indices.length ≠ 0 := by
    intro he
    rw [he, UInt32.toNat_zero] at hcount
    exact hnil (length_eq_zero_iff.1 hcount.symm)
  obtain ⟨credit, hcall, hb⟩ := h.acquire hpos (by omega)
  have hset := settlePost_keeps answer (indices.map fun i => (t.items i).op) hb ht hpos
    (by rw [length_map]) hcount.symm hnodup his
  rw [hcall, if_neg (by simp)]
  exact hset.continues ⟨rfl, rfl, [], (append_nil _).symm⟩

end

end FlagCX.P2p
