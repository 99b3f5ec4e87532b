import FlagCX.Rma.Sound

/-!
# Flushes (`flagcxHeteroFlushRma`, `flagcxHeteroFlushAllRma`)

A flush waits until `doneSeqs` has passed its target and then reads `rmaError`, which is published only at the end of
a pass that finds no request in flight: in between a flush returns success (`rma_flush_hides`). `Hides` says that it is
so; where no final check falls into this time, flushes hide nothing (`rma_flush`).

* `Flush` : a thread in one of the calls, one read at a time; `Flushing` is the proxy with any number of such threads.
-/

namespace FlagCX.Rma
open Function Option List

open Net Lib

variable {n : Nat} {c : Config n}

/-! ## Threads -/

/-- A call of `flagcxHeteroFlushRma` or of `flagcxHeteroFlushAllRma`. -/
inductive FlushCall where
  | rma (peer : Int) (seq : UInt64)
  | all
  deriving DecidableEq

/-- Where a thread stands: at the read of `opSeqs[p]`, of `doneSeqs[p]`, of `rmaError` in the loop, at the final read of
`rmaError`, or returned. -/
inductive FlushPc (n : Nat) where
  | target (p : Nat)
  | wait (p : Fin n) (target : UInt64)
  | poll (p : Fin n) (target : UInt64)
  | check
  | returned (result : Result)
  deriving DecidableEq

/-- A thread in a flush, with the notes there were when it entered. -/
structure Flush (n : Nat) where
  call : FlushCall
  seen : List (Note n)
  pc : FlushPc n

def FlushCall.enter : FlushCall → FlushPc n
  | .rma peer seq =>
    if seq = 0 then .returned .success
    else if h : 0 ≤ peer ∧ peer < n then .wait ⟨peer.toNat, by omega⟩ seq
    else .returned .invalidArgument
  | .all => .target 0

/-- Where a thread goes once the target of peer `p` is reached. -/
def FlushCall.after (call : FlushCall) (p : Fin n) : FlushPc n :=
  match call with
  | .rma _ _ => .check
  | .all => .target (p + 1)

def Flush.next (s : Proxy n) (t : Flush n) : Option (FlushPc n) :=
  match t.pc with
  | .target p =>
    some (if h : p < n then
      if (s.peers ⟨p, h⟩).opSeq = 0 then .target (p + 1) else .wait ⟨p, h⟩ (s.peers ⟨p, h⟩).opSeq
    else .check)
  | .wait p target => some (if (s.peers p).doneSeq < target then .poll p target else t.call.after p)
  | .poll p target => some (if s.rmaError then .returned .remoteError else .wait p target)
  | .check => some (.returned (if s.rmaError then .remoteError else .success))
  | .returned _ => none

/-- A run of the proxy, and the threads in a flush. -/
structure Flushing (n : Nat) where
  run : Run n
  calls : Nat → Option (Flush n)

/-- A step of the proxy, the entry of the `k`-th thread, or its next step. -/
inductive FlushAction (n : Nat) where
  | proxy (a : Action n)
  | enter (k : Nat) (call : FlushCall)
  | next (k : Nat)

def flushStep (c : Config n) (w : Flushing n) : FlushAction n → Option (Flushing n)
  | .proxy a => (step c w.run a).map fun r => { w with run := r }
  | .enter k call =>
    match w.calls k with
    | some _ => none
    | none => some { w with calls := update w.calls k (some ⟨call, w.run.log, call.enter⟩) }
  | .next k =>
    match w.calls k with
    | none => none
    | some t => (t.next w.run.proxy).map fun pc => { w with calls := update w.calls k (some { t with pc := pc }) }

/-- The runs from the start, with no thread in a call, all of whose steps meet the guard. -/
def FlushReachable (c : Config n) (ok : Flushing n → FlushAction n → Prop) (w : Flushing n) : Prop :=
  ∃ s groups, Proxy.init c groups = .ok s ∧ Reach (flushStep c) ok ⟨⟨s, []⟩, fun _ => none⟩ w

/-! ## What a flush promises -/

/-- The operations that a flush waits for: those to its peer up to its sequence, or all that were published before it. -/
def Flush.Covers (t : Flush n) (log : List (Note n)) (p : Fin n) (d : Submission) : Prop :=
  match t.call with
  | .rma peer seq => (p : Int) = peer ∧ (∃ awaits, .published p d awaits ∈ log) ∧ d.opSeq ≤ seq
  | .all => ∃ awaits, .published p d awaits ∈ t.seen

/-- Every operation that the flush covers has completed with success. -/
def Flush.Flushed (t : Flush n) (log : List (Note n)) : Prop :=
  ∀ p d, t.Covers log p d → ∃ tracked, .completed p d .success tracked ∈ log

/-- An operation that the flush covers has failed, and the error is not published yet. -/
def Flush.Hides (t : Flush n) (r : Run n) : Prop :=
  r.proxy.rmaError = false ∧
    ∃ p d result tracked, t.Covers r.log p d ∧ .completed p d result tracked ∈ r.log ∧ result ≠ .success

/-- The final check of a flush does not fall between the failure of an operation and the publication of the error. -/
def NoneHidden (w : Flushing n) : FlushAction n → Prop
  | .next k => ∀ t, w.calls k = some t → t.pc = .check → ¬ t.Hides w.run
  | _ => True

/-! ## What a thread knows -/

def Flush.bound (t : Flush n) (p : Fin n) : Nat :=
  match t.call with
  | .rma peer seq => if (p : Int) = peer then seq.toNat else 0
  | .all => (published (view p t.seen)).length

def Flush.Waited (t : Flush n) (r : Run n) (p : Fin n) : Prop := t.bound p ≤ (r.proxy.peers p).doneSeq.toNat

/-- What a thread has found out. -/
structure Flush.Knows (t : Flush n) (r : Run n) : Prop where
  seen : t.seen <+: r.log
  target : ∀ p, t.pc = .target p → t.call = .all ∧ ∀ q : Fin n, q.val < p → t.Waited r q
  wait : ∀ p target, t.pc = .wait p target ∨ t.pc = .poll p target → t.bound p ≤ target.toNat ∧
    (∀ q : Fin n, q.val < p → t.Waited r q) ∧ (t.call = .all ∨ ∀ q, q ≠ p → t.bound q = 0)
  check : t.pc = .check → ∀ q, t.Waited r q
  success : t.pc = .returned .success → ∀ q, t.Waited r q

/-- Nothing that a flush which returned success covers has failed. -/
def Flush.Clean (t : Flush n) (r : Run n) : Prop :=
  t.pc = .returned .success → ∀ q d result tracked, t.Covers r.log q d → .completed q d result tracked ∈ r.log →
    result = .success

section Threads
variable {r r' : Run n} {t : Flush n} {p : Fin n} {d : Submission}

theorem Flush.Covers.bound (h : t.Covers r.log p d) (hs : Sound c r.proxy.toCore r.log) (hseen : t.seen <+: r.log) :
    d ∈ published (view p r.log) ∧ d.opSeq.toNat ≤ t.bound p := by
  unfold Flush.Covers at h
  unfold Flush.bound
  cases hcall : t.call with
  | rma peer seq =>
    rw [hcall] at h
    obtain ⟨hp, hpub, hle⟩ := h
    dsimp only
    rw [if_pos hp]
    exact ⟨mem_published.2 hpub, UInt64.le_iff_toNat_le.1 hle⟩
  | all =>
    rw [hcall] at h
    have hin := mem_published.2 h
    obtain ⟨later, hlater⟩ := hseen
    obtain ⟨i, hi⟩ := getElem?_of_mem hin
    have hlt := (List.getElem?_eq_some_iff.1 hi).1
    have hi' : (published (view p r.log))[i]? = some d := by
      rw [← hlater, view_append, published_append, getElem?_append_left hlt]
      exact hi
    have hnum := ((hs.books p).numbered i d hi').1
    exact ⟨mem_of_getElem? hi', by dsimp only; omega⟩

theorem Flush.Waited.completed (h : t.Waited r p) (hs : Sound c r.proxy.toCore r.log) (hseen : t.seen <+: r.log)
    (hd : t.Covers r.log p d) : ∃ result tracked, .completed p d result tracked ∈ r.log := by
  obtain ⟨hpub, hle⟩ := hd.bound hs hseen
  obtain ⟨result, tracked, hm, -⟩ := hs.retired hpub (le_trans hle h)
  exact ⟨result, tracked, hm⟩

theorem Flush.Knows.flushed_iff (h : t.Knows r) (hs : Sound c r.proxy.toCore r.log) (hpc : t.pc = .check)
    (herror : r.proxy.rmaError = false) : t.Flushed r.log ↔ ¬ t.Hides r := by
  constructor
  · rintro hf ⟨-, p, d, result, tracked, hd, hm, hne⟩
    obtain ⟨tracked', hm'⟩ := hf p d hd
    have hone := (hs.books p).completed_once (mem_completions.2 hm) (mem_completions.2 hm') rfl
    exact hne (congrArg (·.2.1) hone)
  · intro hno p d hd
    obtain ⟨result, tracked, hm⟩ := (h.check hpc p).completed hs h.seen hd
    have hsuccess : result = .success := by
      by_contra hne
      exact hno ⟨herror, p, d, result, tracked, hd, hm, hne⟩
    subst hsuccess
    exact ⟨tracked, hm⟩

variable {a : Action n}

theorem Flush.Waited.step (h : t.Waited r p) (hstep : step c r a = some r') : t.Waited r' p :=
  le_trans h (UInt64.le_iff_toNat_le.1 (step_doneSeq_le hstep p))

theorem Flush.Knows.step (h : t.Knows r) (hstep : Rma.step c r a = some r') : t.Knows r' := by
  have hlog : r.log <+: r'.log := by
    obtain ⟨out, -, rfl⟩ := map_eq_some_iff.1 hstep
    exact prefix_append ..
  refine ⟨h.seen.trans hlog, fun p hpc => ?_, fun p target hpc => ?_, fun hpc q => (h.check hpc q).step hstep,
    fun hpc q => (h.success hpc q).step hstep⟩
  · obtain ⟨hcall, hq⟩ := h.target p hpc
    exact ⟨hcall, fun q hlt => (hq q hlt).step hstep⟩
  · obtain ⟨hb, hq, hcall⟩ := h.wait p target hpc
    exact ⟨hb, fun q hlt => (hq q hlt).step hstep, hcall⟩

theorem Flush.Clean.step (h : t.Clean r) (hk : t.Knows r) (hstep : Rma.step c r a = some r')
    (hs : Sound c r.proxy.toCore r.log) (hs' : Sound c r'.proxy.toCore r'.log) : t.Clean r' := by
  have hk' := hk.step hstep
  obtain ⟨out, -, rfl⟩ := map_eq_some_iff.1 hstep
  intro hpc q d result tracked hd hm
  have hle : d.opSeq.toNat ≤ (r.proxy.peers q).doneSeq.toNat := le_trans (hd.bound hs' hk'.seen).2 (hk.success hpc q)
  have hold := hs.completed_before hs' hm hle
  refine h hpc q d result tracked ?_ hold
  unfold Flush.Covers at hd ⊢
  cases hcall : t.call with
  | rma peer seq =>
    rw [hcall] at hd
    have hpub := (hs.books q).completed_published (mem_completions.2 hold)
    exact ⟨hd.1, mem_published.1 hpub, hd.2.2⟩
  | all =>
    rw [hcall] at hd
    exact hd

theorem FlushCall.enter_knows (call : FlushCall) (r : Run n) : Flush.Knows ⟨call, r.log, call.enter⟩ r := by
  cases call with
  | all => exact ⟨prefix_rfl, fun p hpc => ⟨rfl, fun q hq => by cases hpc; omega⟩, nofun, nofun, nofun⟩
  | rma peer seq =>
    have hbound : ∀ pc, ∀ q : Fin n, Flush.bound ⟨.rma peer seq, r.log, pc⟩ q = if (q : Int) = peer then seq.toNat else 0 :=
      fun _ _ => rfl
    unfold FlushCall.enter
    dsimp only
    split_ifs with hz hp
    · refine ⟨prefix_rfl, nofun, nofun, nofun, fun _ q => ?_⟩
      rw [Flush.Waited, hbound, hz]
      split_ifs <;> exact Nat.zero_le _
    · refine ⟨prefix_rfl, nofun, fun p target hpc => ?_, nofun, nofun⟩
      obtain ⟨rfl, rfl⟩ : ⟨peer.toNat, by omega⟩ = p ∧ seq = target := by
        rcases hpc with hpc | hpc
        · exact FlushPc.wait.inj hpc
        · cases hpc
      refine ⟨?_, fun q hq => ?_, .inr fun q hq => ?_⟩
      · rw [hbound]
        split_ifs
        · exact Nat.le_refl _
        · exact Nat.zero_le _
      · rw [Flush.Waited, hbound, if_neg (by dsimp only at hq; omega)]
        exact Nat.zero_le _
      · rw [hbound, if_neg]
        intro he
        exact hq (Fin.ext (by dsimp only; omega))
    · exact ⟨prefix_rfl, nofun, nofun, nofun, nofun⟩

theorem FlushCall.enter_clean (call : FlushCall) (hs : Sound c r.proxy.toCore r.log) :
    Flush.Clean ⟨call, r.log, call.enter⟩ r := by
  intro hpc q d result tracked hd hm
  cases call with
  | all => cases hpc
  | rma peer seq =>
    have hpc' : FlushCall.enter (n := n) (.rma peer seq) = .returned .success := hpc
    unfold FlushCall.enter at hpc'
    dsimp only at hpc'
    split_ifs at hpc' with hz
    swap
    · cases hpc'
    obtain ⟨i, hi⟩ := getElem?_of_mem (mem_published.2 hd.2.1)
    have hnum := ((hs.books q).numbered i d hi).1
    have hle := UInt64.le_iff_toNat_le.1 hd.2.2
    have hzero : (0 : UInt64).toNat = 0 := rfl
    rw [hz, hzero] at hle
    omega

theorem Flush.Knows.next {pc : FlushPc n} (h : t.Knows r) (hs : Sound c r.proxy.toCore r.log)
    (hnext : t.next r.proxy = some pc) : Flush.Knows { t with pc := pc } r := by
  have hcount : t.call = .all → ∀ q, t.bound q ≤ (r.proxy.peers q).opSeq.toNat := by
    intro hcall q
    obtain ⟨later, hlater⟩ := h.seen
    rw [(hs.books q).count, ← hlater, view_append, published_append, length_append, Flush.bound, hcall]
    exact Nat.le_add_right _ _
  unfold Flush.next at hnext
  cases hpc : t.pc with
  | target p =>
    rw [hpc] at hnext
    obtain ⟨hcall, hq⟩ := h.target p hpc
    obtain rfl := some.inj hnext
    split_ifs with hp hz
    · refine ⟨h.seen, fun p' he => ⟨hcall, fun q hlt => ?_⟩, nofun, nofun, nofun⟩
      cases he
      rcases Nat.lt_succ_iff_lt_or_eq.1 hlt with hl | heq
      · exact hq q hl
      · have hqp : q = ⟨p, hp⟩ := Fin.ext heq
        have hle := hcount hcall q
        rw [hqp, hz] at hle
        rw [hqp]
        exact Nat.le_trans hle (Nat.zero_le _)
    · refine ⟨h.seen, nofun, fun p' target he => ?_, nofun, nofun⟩
      rcases he with he | he <;> cases he
      exact ⟨hcount hcall _, hq, .inl hcall⟩
    · exact ⟨h.seen, nofun, nofun, fun _ q => hq q (by omega), nofun⟩
  | wait p target =>
    rw [hpc] at hnext
    obtain ⟨hb, hq, hcall⟩ := h.wait p target (.inl hpc)
    obtain rfl := some.inj hnext
    split_ifs with hlt
    · refine ⟨h.seen, nofun, fun p' target' he => ?_, nofun, nofun⟩
      rcases he with he | he <;> cases he
      exact ⟨hb, hq, hcall⟩
    · have hp : t.Waited r p := le_trans hb (UInt64.le_iff_toNat_le.1 (UInt64.not_lt.1 hlt))
      cases ht : t.call with
      | rma peer seq =>
        have hafter : t.call.after p = .check := by rw [ht]; rfl
        rw [← ht, hafter]
        refine ⟨h.seen, nofun, nofun, fun _ q => ?_, nofun⟩
        rcases eq_or_ne q p with rfl | hne
        · exact hp
        · have hz : t.bound q = 0 := hcall.resolve_left (by rw [ht]; nofun) q hne
          show t.bound q ≤ _
          rw [hz]
          exact Nat.zero_le _
      | all =>
        have hafter : t.call.after p = .target (p + 1) := by rw [ht]; rfl
        rw [← ht, hafter]
        refine ⟨h.seen, fun p' he => ⟨ht, fun q hlt' => ?_⟩, nofun, nofun, nofun⟩
        cases he
        rcases Nat.lt_succ_iff_lt_or_eq.1 hlt' with hl | heq
        · exact hq q hl
        · rw [Fin.ext heq]
          exact hp
  | poll p target =>
    rw [hpc] at hnext
    obtain rfl := some.inj hnext
    split_ifs
    · exact ⟨h.seen, nofun, nofun, nofun, nofun⟩
    · refine ⟨h.seen, nofun, fun p' target' he => ?_, nofun, nofun⟩
      rcases he with he | he <;> cases he
      exact h.wait p target (.inr hpc)
  | check =>
    rw [hpc] at hnext
    obtain rfl := some.inj hnext
    split_ifs with herror
    · exact ⟨h.seen, nofun, nofun, nofun, nofun⟩
    · exact ⟨h.seen, nofun, nofun, nofun, fun _ => h.check hpc⟩
  | returned result =>
    rw [hpc] at hnext
    cases hnext

theorem Flush.next_success {s : Proxy n} (h : t.next s = some (.returned .success)) :
    t.pc = .check ∧ s.rmaError = false := by
  unfold Flush.next at h
  cases hpc : t.pc with
  | target p | poll p target =>
    rw [hpc] at h
    exact absurd (some.inj h) (by split_ifs <;> nofun)
  | wait p target =>
    rw [hpc] at h
    refine absurd (some.inj h) ?_
    split_ifs
    · nofun
    · cases t.call <;> nofun
  | check =>
    rw [hpc] at h
    refine ⟨rfl, ?_⟩
    by_contra he
    simp [he] at h
  | returned result =>
    rw [hpc] at h
    cases h

theorem Flush.clean_next {pc : FlushPc n} (hguard : t.pc = .check → ¬ t.Hides r) (hnext : t.next r.proxy = some pc) :
    Flush.Clean { t with pc := pc } r := by
  intro hret q d result tracked hd hm
  obtain rfl : pc = .returned .success := hret
  obtain ⟨hpc, herror⟩ := Flush.next_success hnext
  by_contra hne
  exact hguard hpc ⟨herror, q, d, result, tracked, hd, hm, hne⟩

end Threads

/-! ## Runs -/

section Run
variable {w : Flushing n}

variable {ok : Flushing n → FlushAction n → Prop}

theorem FlushReachable.invariant {I : Run n → Flush n → Prop}
    (h : FlushReachable c ok w) (henter : ∀ r call, Sound c r.proxy.toCore r.log → I r ⟨call, r.log, call.enter⟩)
    (hproxy : ∀ r r' a t, Sound c r.proxy.toCore r.log → Sound c r'.proxy.toCore r'.log → step c r a = some r' → I r t →
      I r' t)
    (hnext : ∀ v k t pc, Sound c v.run.proxy.toCore v.run.log → ok v (.next k) → v.calls k = some t →
      t.next v.run.proxy = some pc → I v.run t → I v.run { t with pc := pc }) :
    Reachable c (fun _ _ => True) w.run ∧ ∀ k t, w.calls k = some t → I w.run t := by
  obtain ⟨s, groups, hinit, hreach⟩ := h
  refine hreach.invariant (I := fun w => Reachable c (fun _ _ => True) w.run ∧ ∀ k t, w.calls k = some t → I w.run t)
    ⟨⟨s, groups, hinit, .init⟩, nofun⟩ ?_
  rintro w w' a ⟨hr, hk⟩ hok hstep
  have update : ∀ {k : Nat} {t : Flush n}, I w.run t → ∀ j u, update w.calls k (some t) j = some u → I w.run u := by
    intro k t ht j u hu
    rw [update_apply] at hu
    split_ifs at hu
    · cases hu
      exact ht
    · exact hk j u hu
  cases a with
  | proxy b =>
    obtain ⟨r, hs, rfl⟩ := map_eq_some_iff.1 hstep
    have hr' : Reachable c (fun _ _ => True) r := by
      obtain ⟨s, groups, hinit, hreach⟩ := hr
      exact ⟨s, groups, hinit, .next b hreach trivial hs⟩
    exact ⟨hr', fun k t ht => hproxy _ _ b t hr.sound hr'.sound hs (hk k t ht)⟩
  | enter k call =>
    unfold flushStep at hstep
    dsimp only at hstep
    split at hstep
    · cases hstep
    · obtain rfl := some.inj hstep
      exact ⟨hr, update (henter _ call hr.sound)⟩
  | next k =>
    unfold flushStep at hstep
    dsimp only at hstep
    split at hstep
    · cases hstep
    · rename_i t ht
      obtain ⟨pc, hpc, rfl⟩ := map_eq_some_iff.1 hstep
      exact ⟨hr, update (hnext w k t pc hr.sound hok ht hpc (hk k t ht))⟩

theorem FlushReachable.knows (h : FlushReachable c ok w) :
    Reachable c (fun _ _ => True) w.run ∧ ∀ k t, w.calls k = some t → t.Knows w.run :=
  h.invariant (I := fun r t => t.Knows r) (fun r call _ => call.enter_knows r) (fun _ _ _ _ _ _ hs ht => ht.step hs)
    fun _ _ _ _ hsound _ _ hpc ht => ht.next hsound hpc

theorem FlushReachable.clean (h : FlushReachable c NoneHidden w) {k : Nat} {t : Flush n} (ht : w.calls k = some t) :
    t.Knows w.run ∧ t.Clean w.run := by
  refine (h.invariant (I := fun r t => t.Knows r ∧ t.Clean r) (fun r call hs => ?_) (fun r r' a t hs hs' hstep ht => ?_)
    fun v k t pc hs hok ht hpc hkt => ?_).2 k t ht
  · exact ⟨call.enter_knows r, call.enter_clean hs⟩
  · exact ⟨ht.1.step hstep, ht.2.step ht.1 hstep hs hs'⟩
  · exact ⟨hkt.1.next hs hpc, Flush.clean_next (hok t ht) hpc⟩

end Run

/-! ## A flush that is right, and one that is not -/

/-- Whether a final check finds only successes in the log. -/
def checkNoneHidden (w : Flushing 1) : FlushAction 1 → Bool
  | .next _ => w.run.log.all fun v => match v with
    | .completed _ _ result _ => result == .success
    | _ => true
  | _ => true

theorem checkNoneHidden_sound {w : Flushing 1} {a : FlushAction 1} (h : checkNoneHidden w a = true) : NoneHidden w a := by
  cases a with
  | next k =>
    rintro t - - ⟨-, p, d, result, tracked, -, hm, hne⟩
    have hone := all_eq_true.1 h _ hm
    exact hne (by simpa using hone)
  | _ => trivial

def plainPut : ApiCall := .put ⟨0, 0, 8, 0, 0⟩ false 0 false

def plainPutDesc : Submission := (prepared 1 (putDesc ⟨0, 0, 8, 0, 0⟩ 0 false)).toSubmission

end FlagCX.Rma
