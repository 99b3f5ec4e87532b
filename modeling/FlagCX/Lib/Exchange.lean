import Mathlib.Algebra.Order.BigOperators.Group.Finset
import FlagCX.Lib.Network

/-!
# Exchanges of all with all

Each of `n` processes exchanges one message with every other one, in the order of their numbers. In each pair the one with the
higher number sends first.

* `Exchange.conf` : a state of the network is given by the places to which the processes have come.
* `Exchange.step_conf` : a step takes one process to its next place.
* `Exchange.free` : of the exchanges that are left, in the order of the lower number and then of the higher one, the first can go
  on, also if a sender waits for its receiver.
* `Exchange.completes` : every run ends, with all processes at their ends.
-/

namespace FlagCX.Lib
open Function List Option

/-- What the processes exchange, and what they do with it.

* `msg r i` : the message from `r` to `i`;
* `own` : what a process does when it comes to itself;
* `get` : what it does with a message from another one, and `put` with the message that is exchanged. -/
structure Exchange (π μ ν ε σ : Type) where
  n : Nat
  port : π
  init : Nat → σ
  msg : Nat → Nat → μ
  own : Nat → σ → σ
  get : Nat → Nat → μ → σ → Proc Nat π μ ν ε σ
  put : Nat → Nat → σ → σ
  get_msg : ∀ r i s, get r i (msg i r) s = .done (put r i s)

/-- The next process to exchange with, and whether half of this exchange is done. -/
@[ext] structure Place where
  next : Nat
  half : Bool
  deriving DecidableEq

namespace Exchange
variable {π μ ν ε σ : Type} (x : Exchange π μ ν ε σ)

/-! ## The processes -/

def round (r : Nat) (s : σ) (i : Nat) : Proc Nat π μ ν ε σ :=
  if i = r then .done (x.own r s)
  else if i < r then .send i x.port (x.msg r i) (.recv i x.port fun m => x.get r i m s)
  else .recv i x.port fun m => x.get r i m s >>= fun s => .send i x.port (x.msg r i) (.done s)

/-- All exchanges of `r`. -/
def program (r : Nat) : Proc Nat π μ ν ε σ := (range x.n).foldlM (x.round r) (x.init r)

/-- What `r` has after the exchanges with those below `c`. -/
def acc (r c : Nat) : σ := (range c).foldl (fun s i => if i = r then x.own r s else x.put r i s) (x.init r)

def after (r c : Nat) (s : σ) : Proc Nat π μ ν ε σ := (range' c (x.n - c)).foldlM (x.round r) s

def code (r : Nat) (p : Place) : Proc Nat π μ ν ε σ :=
  if p.half then
    if p.next < r then .recv p.next x.port fun m => x.get r p.next m (x.acc r p.next) >>= x.after r (p.next + 1)
    else .send p.next x.port (x.msg r p.next) (x.after r (p.next + 1) (x.acc r (p.next + 1)))
  else x.after r p.next (x.acc r p.next)

section Code
variable {x} {r c : Nat} {p : Place}

theorem acc_succ (hc : c ≠ r) : x.acc r (c + 1) = x.put r c (x.acc r c) := by
  rw [acc, acc, range_succ, foldl_append, foldl_cons, foldl_nil, if_neg hc]

theorem acc_own : x.acc r (r + 1) = x.own r (x.acc r r) := by
  rw [acc, acc, range_succ, foldl_append, foldl_cons, foldl_nil, if_pos rfl]

theorem program_eq : x.program r = x.after r 0 (x.acc r 0) := by
  rw [program, after, range_eq_range']
  rfl

theorem after_end {s : σ} (hc : x.n ≤ c) : x.after r c s = .done s := by
  rw [after, Nat.sub_eq_zero_of_le hc]
  rfl

theorem after_round (hc : c < x.n) (s : σ) : x.after r c s = x.round r s c >>= x.after r (c + 1) := by
  rw [after, show x.n - c = x.n - (c + 1) + 1 by omega, range'_succ, foldlM_cons]
  rfl

theorem after_own (hr : r < x.n) : x.after r r (x.acc r r) = x.after r (r + 1) (x.acc r (r + 1)) := by
  rw [after_round hr, round, if_pos rfl, Proc.done_bind, acc_own]

end Code

/-! ## Places -/

/-- A process does not stay at itself. -/
def skip (r c : Nat) : Place := ⟨if c = r then c + 1 else c, false⟩

def advance (r : Nat) (p : Place) : Place := if p.half then skip r (p.next + 1) else ⟨p.next, true⟩

/-- The process has sent its message to `i`. -/
def Sent (r : Nat) (p : Place) (i : Nat) : Prop := i < p.next ∨ i = p.next ∧ p.half = true ∧ i < r

/-- The process has got its message from `i`. -/
def Got (r : Nat) (p : Place) (i : Nat) : Prop := i < p.next ∨ i = p.next ∧ p.half = true ∧ r < i

instance (r : Nat) (p : Place) (i : Nat) : Decidable (Sent r p i) := inferInstanceAs (Decidable (_ ∨ _))

instance (r : Nat) (p : Place) (i : Nat) : Decidable (Got r p i) := inferInstanceAs (Decidable (_ ∨ _))

def Sends (r : Nat) (p : Place) : Prop := p.half = true ↔ r < p.next

instance (r : Nat) (p : Place) : Decidable (Sends r p) := inferInstanceAs (Decidable (_ ↔ _))

section Places
variable {x} {r i : Nat} {p : Place}

theorem sends_false {c : Nat} (hp : c ≠ r) : Sends r ⟨c, false⟩ ↔ c < r := by
  simp only [Sends, Bool.false_eq_true, false_iff, not_lt]
  omega

theorem sends_true {c : Nat} : Sends r ⟨c, true⟩ ↔ r < c := by simp only [Sends, true_iff]

theorem sent_advance (hp : p.next ≠ r) (hi : i ≠ r) : Sent r (advance r p) i ↔ Sent r p i ∨ Sends r p ∧ i = p.next := by
  obtain ⟨c, half⟩ := p
  cases half with
  | false =>
    simp only [Sent, advance, sends_false hp, Bool.false_eq_true, if_false, false_and, and_false, or_false, true_and]
    omega
  | true =>
    simp only [Sent, advance, sends_true, skip, if_true, Bool.false_eq_true, false_and, and_false, or_false, true_and]
    split_ifs <;> omega

theorem got_advance (hp : p.next ≠ r) (hi : i ≠ r) : Got r (advance r p) i ↔ Got r p i ∨ ¬ Sends r p ∧ i = p.next := by
  obtain ⟨c, half⟩ := p
  cases half with
  | false =>
    simp only [Got, advance, sends_false hp, Bool.false_eq_true, if_false, false_and, and_false, or_false, true_and]
    omega
  | true =>
    simp only [Got, advance, sends_true, skip, if_true, Bool.false_eq_true, false_and, and_false, or_false, true_and]
    split_ifs <;> omega

theorem not_sent_next (hp : p.next ≠ r) (hs : Sends r p) : ¬ Sent r p p.next := by
  obtain ⟨c, half⟩ := p
  cases half with
  | false => simp [Sent]
  | true =>
    rw [sends_true] at hs
    simp only [Sent, true_and]
    omega

theorem not_got_next (hp : p.next ≠ r) (hs : ¬ Sends r p) : ¬ Got r p p.next := by
  obtain ⟨c, half⟩ := p
  cases half with
  | false => simp [Got]
  | true =>
    rw [sends_true] at hs
    simp only [Got, true_and]
    omega

theorem after_skip {c : Nat} (hr : r < x.n) : x.code r (skip r c) = x.after r c (x.acc r c) := by
  rw [code, skip]
  rw [if_neg Bool.false_ne_true]
  split_ifs with hc
  · rw [hc]
    exact (after_own hr).symm
  · rfl

theorem code_start (hr : r < x.n) : x.code r (skip r 0) = x.program r := by rw [after_skip hr, program_eq]

theorem code_send (hr : r < x.n) (hn : p.next < x.n) (hp : p.next ≠ r) (hs : Sends r p) :
    x.code r p = .send p.next x.port (x.msg r p.next) (x.code r (advance r p)) := by
  obtain ⟨c, half⟩ := p
  cases half with
  | false =>
    have hlt : c < r := (sends_false hp).1 hs
    rw [code, if_neg Bool.false_ne_true, after_round hn, round, if_neg hp, if_pos hlt, Proc.send_bind, Proc.recv_bind, advance,
      if_neg Bool.false_ne_true, code, if_pos rfl, if_pos hlt]
  | true =>
    have hlt : ¬ c < r := not_lt.2 (sends_true.1 hs).le
    rw [code, if_pos rfl, if_neg hlt, advance, if_pos rfl, after_skip hr]

theorem code_recv (hr : r < x.n) (hn : p.next < x.n) (hp : p.next ≠ r) (hs : ¬ Sends r p) :
    ∃ next, x.code r p = .recv p.next x.port next ∧ next (x.msg p.next r) = x.code r (advance r p) := by
  obtain ⟨c, half⟩ := p
  cases half with
  | false =>
    have hlt : ¬ c < r := fun hlt => hs ((sends_false hp).2 hlt)
    refine ⟨fun m => (x.get r c m (x.acc r c) >>= fun s => .send c x.port (x.msg r c) (.done s)) >>= x.after r (c + 1), ?_, ?_⟩
    · rw [code, if_neg Bool.false_ne_true, after_round hn, round, if_neg hp, if_neg hlt, Proc.recv_bind]
    · dsimp only
      rw [x.get_msg, Proc.done_bind, Proc.send_bind, Proc.done_bind, advance, if_neg Bool.false_ne_true, code, if_pos rfl,
        if_neg hlt, acc_succ hp]
  | true =>
    have hlt : c < r := by
      rw [sends_true] at hs
      dsimp only at hp
      omega
    refine ⟨fun m => x.get r c m (x.acc r c) >>= x.after r (c + 1), ?_, ?_⟩
    · rw [code, if_pos rfl, if_pos hlt]
    · dsimp only
      rw [x.get_msg, Proc.done_bind, advance, if_pos rfl, after_skip hr, acc_succ hp]

theorem code_end (hn : x.n ≤ p.next) (hhalf : p.half = false) : x.code r p = .done (x.acc r p.next) := by
  rw [code, hhalf, if_neg Bool.false_ne_true, after_end hn]

end Places

/-- Places that processes can have come to: no message is got before it is sent. -/
structure Valid (pos : Nat → Place) : Prop where
  other : ∀ r < x.n, (pos r).next ≠ r
  within : ∀ r < x.n, (pos r).next ≤ x.n
  half : ∀ r < x.n, (pos r).half = true → (pos r).next < x.n
  sent : ∀ a b, a < x.n → b < x.n → a ≠ b → Got b (pos b) a → Sent a (pos a) b

section Valid
variable {x} {pos : Nat → Place} {r : Nat}

theorem valid_start : x.Valid fun r => skip r 0 where
  other r _ := by
    simp only [skip]
    split_ifs <;> omega
  within r hr := by
    simp only [skip]
    split_ifs <;> omega
  half r _ h := by cases h
  sent a b _ _ hab h := by
    simp only [Got, skip] at h
    rcases h with h | ⟨-, h, -⟩
    · split_ifs at h
      · simp only [Sent, skip]
        split_ifs <;> omega
      · omega
    · cases h

theorem Valid.advance (h : x.Valid pos) (hr : r < x.n) (hn : (pos r).next < x.n)
    (hgot : ¬ Sends r (pos r) → Sent (pos r).next (pos (pos r).next) r) :
    x.Valid (update pos r (advance r (pos r))) := by
  have hother := h.other r hr
  have hpos : ∀ {a : Nat}, a ≠ r → update pos r (Exchange.advance r (pos r)) a = pos a := fun ha => update_of_ne ha _ _
  constructor
  · intro a ha
    by_cases har : a = r
    · rw [har, update_self, Exchange.advance]
      split_ifs
      · simp only [skip]
        split_ifs <;> omega
      · exact hother
    · rw [hpos har]
      exact h.other a ha
  · intro a ha
    by_cases har : a = r
    · rw [har, update_self, Exchange.advance]
      split_ifs
      · simp only [skip]
        split_ifs <;> omega
      · exact h.within r hr
    · rw [hpos har]
      exact h.within a ha
  · intro a ha hhalf
    by_cases har : a = r
    · rw [har, update_self, Exchange.advance] at hhalf ⊢
      split_ifs at hhalf ⊢
      · cases hhalf
      · exact hn
    · rw [hpos har] at hhalf ⊢
      exact h.half a ha hhalf
  · intro a b ha hb hab hgotb
    by_cases har : a = r
    · subst har
      rw [hpos hab.symm] at hgotb
      rw [update_self, sent_advance hother hab.symm]
      exact .inl (h.sent a b ha hb hab hgotb)
    · rw [hpos har]
      by_cases hbr : b = r
      · subst hbr
        rw [update_self, got_advance hother hab] at hgotb
        rcases hgotb with hgotb | ⟨hs, rfl⟩
        · exact h.sent a b ha hb hab hgotb
        · exact hgot hs
      · rw [hpos hbr] at hgotb
        exact h.sent a b ha hb hab hgotb

end Valid

/-! ## States -/

variable [DecidableEq π]

def conf (pos : Nat → Place) : Network Nat π μ ν ε σ where
  procs r := if r < x.n then x.code r (pos r) else .done (x.init r)
  chans c := if c.2.2 = x.port ∧ c.1 < x.n ∧ c.2.1 < x.n ∧ c.1 ≠ c.2.1 ∧ Sent c.1 (pos c.1) c.2.1 ∧ ¬ Got c.2.1 (pos c.2.1) c.1 then
    [x.msg c.1 c.2.1] else []
  notes _ := []

def start : Network Nat π μ ν ε σ := .start fun r => if r < x.n then x.program r else .done (x.init r)

section States
variable {x} {pos : Nat → Place} {r : Nat}

theorem start_eq : x.start = x.conf fun r => skip r 0 := by
  apply Network.ext
  · funext r
    simp only [start, Network.start, conf]
    split_ifs with hr
    · exact (code_start hr).symm
    · rfl
  · funext ⟨a, b, port⟩
    simp only [start, Network.start, conf]
    rw [if_neg]
    rintro ⟨-, ha, hb, hab, hsent, -⟩
    simp only [Sent, skip, Bool.false_eq_true, false_and, and_false, or_false] at hsent
    split_ifs at hsent <;> omega
  · rfl

theorem conf_procs (hr : r < x.n) : (x.conf pos).procs r = x.code r (pos r) := if_pos hr

theorem conf_chans {a b : Nat} : (x.conf pos).chans (a, b, x.port) =
    if a < x.n ∧ b < x.n ∧ a ≠ b ∧ Sent a (pos a) b ∧ ¬ Got b (pos b) a then [x.msg a b] else [] := by
  simp only [conf, true_and]

theorem conf_chans_advance (h : x.Valid pos) (hr : r < x.n) {c : Nat × Nat × π}
    (hsend : c ≠ (r, (pos r).next, x.port)) (hrecv : c ≠ ((pos r).next, r, x.port)) :
    (x.conf (update pos r (advance r (pos r)))).chans c = (x.conf pos).chans c := by
  obtain ⟨a, b, port⟩ := c
  simp only [conf]
  refine if_congr (and_congr_right fun hport => and_congr_right fun ha => and_congr_right fun hb => and_congr_right fun hab =>
    and_congr ?_ (not_congr ?_)) rfl rfl
  · by_cases har : a = r
    · have hb : b ≠ (pos r).next := fun hb => hsend (by rw [har, hb, hport])
      rw [har] at hab
      rw [har, update_self, sent_advance (h.other r hr) (Ne.symm hab)]
      simp [hb]
    · rw [update_of_ne har]
  · by_cases hbr : b = r
    · have ha : a ≠ (pos r).next := fun ha => hrecv (by rw [hbr, ha, hport])
      rw [hbr] at hab
      rw [hbr, update_self, got_advance (h.other r hr) hab]
      simp [ha]
    · rw [update_of_ne hbr]

/-- **A step takes a process to its next place.** -/
theorem step_conf (h : x.Valid pos) (hr : r < x.n) (hn : (pos r).next < x.n) :
    (x.conf pos).step r = if Sends r (pos r) ∨ Sent (pos r).next (pos (pos r).next) r then
      some (x.conf (update pos r (advance r (pos r)))) else none := by
  have hother := h.other r hr
  have hprocs : update (x.conf pos).procs r (x.code r (advance r (pos r))) =
      (x.conf (update pos r (advance r (pos r)))).procs := by
    funext a
    by_cases har : a = r
    · rw [har, update_self, conf_procs hr, update_self]
    · rw [update_of_ne har]
      simp only [conf]
      rw [update_of_ne har]
  have hchans : ∀ {c l}, (∀ c', c' ≠ c → (x.conf (update pos r (advance r (pos r)))).chans c' = (x.conf pos).chans c') →
      (x.conf (update pos r (advance r (pos r)))).chans c = l →
      update (x.conf pos).chans c l = (x.conf (update pos r (advance r (pos r)))).chans := by
    intro c l hne heq
    funext c'
    by_cases hc : c' = c
    · rw [hc, update_self, heq]
    · rw [update_of_ne hc, hne c' hc]
  have hsent := sent_advance (p := pos r) hother hother
  have hgot := got_advance (p := pos r) hother hother
  by_cases hs : Sends r (pos r)
  · have hnot : ¬ Got (pos r).next (pos (pos r).next) r := fun h' =>
      not_sent_next hother hs (h.sent r _ hr hn hother.symm h')
    have hnow : Sent r (advance r (pos r)) (pos r).next := hsent.2 (.inr ⟨hs, rfl⟩)
    have hsame : Got r (advance r (pos r)) (pos r).next ↔ Got r (pos r) (pos r).next :=
      hgot.trans (or_iff_left fun h' => h'.1 hs)
    rw [Network.step_send ((conf_procs hr).trans (code_send hr hn hother hs)), if_pos (.inl hs)]
    refine congrArg some (Network.ext hprocs (hchans (fun c' hc => ?_) ?_) rfl)
    · by_cases hc' : c' = ((pos r).next, r, x.port)
      · rw [hc', conf_chans, conf_chans, update_self, update_of_ne hother]
        simp only [hsame]
      · exact conf_chans_advance h hr hc hc'
    · rw [conf_chans, conf_chans, update_self, update_of_ne hother, if_pos ⟨hr, hn, hother.symm, hnow, hnot⟩,
        if_neg fun h' => not_sent_next hother hs h'.2.2.2.1]
      rfl
  · obtain ⟨next, hcode, hnext⟩ := code_recv hr hn hother hs
    by_cases hin : Sent (pos r).next (pos (pos r).next) r
    · have hchan : (x.conf pos).chans ((pos r).next, r, x.port) = [x.msg (pos r).next r] := by
        rw [conf_chans, if_pos ⟨hn, hr, hother, hin, not_got_next hother hs⟩]
      have hnow : Got r (advance r (pos r)) (pos r).next := hgot.2 (.inr ⟨hs, rfl⟩)
      have hsame : Sent r (advance r (pos r)) (pos r).next ↔ Sent r (pos r) (pos r).next :=
        hsent.trans (or_iff_left fun h' => hs h'.1)
      rw [Network.step_recv ((conf_procs hr).trans hcode) hchan, hnext, if_pos (.inr hin)]
      refine congrArg some (Network.ext hprocs (hchans (fun c' hc => ?_) ?_) rfl)
      · by_cases hc' : c' = (r, (pos r).next, x.port)
        · rw [hc', conf_chans, conf_chans, update_self, update_of_ne hother]
          simp only [hsame]
        · exact conf_chans_advance h hr hc' hc
      · rw [conf_chans, update_self, update_of_ne hother, if_neg fun h' => h'.2.2.2.2 hnow]
    · have hchan : (x.conf pos).chans ((pos r).next, r, x.port) = [] := by
        rw [conf_chans, if_neg fun h' => hin h'.2.2.2.1]
      rw [if_neg (not_or.2 ⟨hs, hin⟩), Network.step, conf_procs hr, hcode]
      dsimp only
      rw [hchan]

theorem conf_end (h : x.Valid pos) (hn : r < x.n → x.n ≤ (pos r).next) :
    (x.conf pos).procs r = .done (if r < x.n then x.acc r x.n else x.init r) := by
  simp only [conf]
  split_ifs with hr
  · have hnext : (pos r).next = x.n := le_antisymm (h.within r hr) (hn hr)
    have hhalf : (pos r).half = false := by
      by_contra hhalf
      have hlt := h.half r hr (by simpa using hhalf)
      omega
    rw [code_end (hn hr) hhalf, hnext]
  · rfl

/-! ## Runs -/

/-- How far a process has come. -/
def weight (p : Place) : Nat := 2 * p.next + if p.half then 1 else 0

theorem weight_advance (p : Place) : weight p + 1 ≤ weight (advance r p) := by
  obtain ⟨c, half⟩ := p
  cases half with
  | false =>
    simp only [weight, advance, Bool.false_eq_true, if_false, if_true]
    omega
  | true =>
    simp only [weight, advance, skip, if_true, Bool.false_eq_true, if_false]
    split_ifs <;> omega

variable {n' : Network Nat π μ ν ε σ}

theorem Valid.step (h : x.Valid pos) (hstep : (x.conf pos).step r = some n') :
    r < x.n ∧ ∃ p, n' = x.conf (update pos r p) ∧ x.Valid (update pos r p) ∧ weight (pos r) + 1 ≤ weight p := by
  by_cases hgo : r < x.n ∧ (pos r).next < x.n
  · obtain ⟨hr, hn⟩ := hgo
    rw [step_conf h hr hn] at hstep
    split_ifs at hstep with hready
    cases hstep
    exact ⟨hr, _, rfl, h.advance hr hn fun hs => hready.resolve_left hs, weight_advance _⟩
  · have hend := conf_end h fun hr => not_lt.1 fun hn => hgo ⟨hr, hn⟩
    rw [Network.step, hend] at hstep
    cases hstep

/-- **The states of a run.** -/
theorem run {as : List Nat} (hexec : exec Network.step x.start as = some n') :
    ∃ pos, x.Valid pos ∧ n' = x.conf pos ∧ as.length ≤ ∑ r ∈ Finset.range x.n, weight (pos r) := by
  have hgo : ∀ (as : List Nat) pos, x.Valid pos → exec Network.step (x.conf pos) as = some n' →
      ∃ pos', x.Valid pos' ∧ n' = x.conf pos' ∧
        as.length + ∑ r ∈ Finset.range x.n, weight (pos r) ≤ ∑ r ∈ Finset.range x.n, weight (pos' r) := by
    intro as
    induction as with
    | nil =>
      intro pos h hexec
      cases hexec
      exact ⟨pos, h, rfl, by rw [length_nil, zero_add]⟩
    | cons r as ih =>
      intro pos h hexec
      obtain ⟨n₁, hfirst, hexec⟩ := bind_eq_some_iff.1 hexec
      obtain ⟨hr, p, rfl, hvalid, hweight⟩ := h.step hfirst
      obtain ⟨pos', h', rfl, hlength⟩ := ih _ hvalid hexec
      refine ⟨pos', h', rfl, ?_⟩
      have hmore : ∑ a ∈ Finset.range x.n, weight (pos a) < ∑ a ∈ Finset.range x.n, weight (update pos r p a) := by
        refine Finset.sum_lt_sum (fun a _ => ?_) ⟨r, Finset.mem_range.2 hr, ?_⟩
        · by_cases har : a = r
          · rw [har, update_self]
            omega
          · rw [update_of_ne har]
        · rw [update_self]
          exact hweight
      rw [length_cons]
      omega
  rw [start_eq] at hexec
  obtain ⟨pos, h, rfl, hlength⟩ := hgo as _ valid_start hexec
  exact ⟨pos, h, rfl, by omega⟩

omit [DecidableEq π] in
theorem Valid.weight_le (h : x.Valid pos) : ∑ r ∈ Finset.range x.n, weight (pos r) ≤ x.n * (2 * x.n) := by
  calc ∑ r ∈ Finset.range x.n, weight (pos r) ≤ ∑ _r ∈ Finset.range x.n, 2 * x.n := by
        refine Finset.sum_le_sum fun r hr => ?_
        have hwithin := h.within r (Finset.mem_range.1 hr)
        have hhalf := h.half r (Finset.mem_range.1 hr)
        rw [weight]
        split_ifs with hh
        · have := hhalf hh
          omega
        · omega
    _ = x.n * (2 * x.n) := by rw [Finset.sum_const_nat fun _ _ => rfl, Finset.card_range]

section

variable (h : x.Valid pos) (hstop : ∀ a, (x.conf pos).blocked a = none) (hr : r < x.n)
include h hstop hr

/-- Where nothing can go on, who waits for a message waits for one that was not sent. -/
theorem Valid.waits (hn : (pos r).next < x.n) (hs : ¬ Sends r (pos r)) : ¬ Sent (pos r).next (pos (pos r).next) r := by
  intro hsent
  have hnone := hstop (.inl r)
  obtain ⟨next, hcode, -⟩ := code_recv hr hn (h.other r hr) hs
  rw [Network.blocked, (conf_procs hr).trans hcode] at hnone
  rw [step_conf h hr hn, if_pos (.inr hsent)] at hnone
  cases hnone

/-- Where nothing can go on, no process waits for one that is about to send to it. -/
theorem Valid.apart {c : Nat} (hc : c < x.n) (hrc : (pos r).next = c) (hcr : (pos c).next = r) (hs : Sends r (pos r)) :
    Sends c (pos c) := by
  by_contra hs'
  subst hrc
  have hnone := hstop (.inr (r, (pos r).next))
  obtain ⟨next, hcode, -⟩ := code_recv hc (by rw [hcr]; exact hr) (h.other _ hc) hs'
  rw [hcr] at hcode
  have hchan : (x.conf pos).chans (r, (pos r).next, x.port) = [] := by
    rw [conf_chans, if_neg fun h' => not_sent_next (h.other r hr) hs h'.2.2.2.1]
  rw [Network.blocked, Network.meet, (conf_procs hr).trans (code_send hr hc (h.other r hr) hs),
    (conf_procs hc).trans hcode] at hnone
  dsimp only at hnone
  rw [if_pos ⟨rfl, rfl, rfl, hchan⟩] at hnone
  cases hnone

/-- **The first exchange that is left can go on**, even if the sender waits for its receiver. -/
theorem Valid.free : x.n ≤ (pos r).next := by
  classical
  by_contra hleft
  -- the exchange of `a` with `b` is not over for both of them
  let Left : Nat → Nat → Prop := fun a b => a < b ∧ b < x.n ∧ ((pos a).next ≤ b ∨ (pos b).next ≤ a)
  have hsome : ∃ a b, Left a b := by
    have hother := h.other r hr
    rcases Nat.lt_or_gt_of_ne hother with hlt | hgt
    · exact ⟨(pos r).next, r, hlt, hr, .inr (le_rfl)⟩
    · exact ⟨r, (pos r).next, hgt, by omega, .inl (le_rfl)⟩
  obtain ⟨a, hsome, hamin⟩ : ∃ a, (∃ b, Left a b) ∧ ∀ a' < a, ¬ ∃ b, Left a' b :=
    ⟨Nat.find hsome, Nat.find_spec hsome, fun a' => Nat.find_min hsome⟩
  obtain ⟨b, ⟨hab, hb, hopen⟩, hbmin⟩ : ∃ b, Left a b ∧ ∀ b' < b, ¬ Left a b' :=
    ⟨Nat.find hsome, Nat.find_spec hsome, fun b' => Nat.find_min hsome⟩
  have ha : a < x.n := hab.trans hb
  -- both have come to it, since the exchanges before are over
  have hcomea : b ≤ (pos a).next := by
    by_contra hlt
    rcases Nat.lt_or_gt_of_ne (h.other a ha) with hlow | hhigh
    · exact hamin _ hlow ⟨a, hlow, ha, .inr (le_rfl)⟩
    · exact hbmin _ (by omega) ⟨hhigh, by omega, .inl (le_rfl)⟩
  have hcomeb : a ≤ (pos b).next := by
    by_contra hlt
    exact hamin _ (by omega) ⟨b, by omega, hb, .inr (le_rfl)⟩
  rcases Nat.eq_or_lt_of_le hcomea with hata | hpasta
  · rcases Nat.eq_or_lt_of_le hcomeb with hatb | hpastb
    · by_cases hsa : Sends a (pos a)
      · have hsb := h.apart hstop ha hb hata.symm hatb.symm hsa
        have hhalf : (pos a).half = true := hsa.2 (by omega)
        have hsent := h.sent b a hb ha (by omega) (.inr ⟨hata, hhalf, hab⟩)
        rw [hatb] at hsent
        exact not_sent_next (h.other b hb) hsb hsent
      · by_cases hsb : Sends b (pos b)
        · exact hsa (h.apart hstop hb ha hatb.symm hata.symm hsb)
        · have hhalf : (pos b).half = true := by
            by_contra hhalf
            exact hsb ⟨fun h' => absurd h' hhalf, fun h' => by omega⟩
          refine h.waits hstop ha (by omega) hsa ?_
          rw [← hata]
          exact .inr ⟨hatb, hhalf, hab⟩
    · rcases h.sent a b ha hb (by omega) (.inl hpastb) with hsent | ⟨-, -, hlt⟩
      · omega
      · omega
  · have hatb : (pos b).next = a := by omega
    rcases h.sent b a hb ha (by omega) (.inl hpasta) with hsent | ⟨-, hhalf, -⟩
    · omega
    · refine h.waits hstop hb (by omega) (fun hs => ?_) ?_
      · have := hs.1 hhalf
        omega
      · rw [hatb]
        exact .inl hpasta

end

/-! ## The end -/

/-- **All exchanges come to their ends**, and each process has what it has put together. -/
theorem completes : x.start.Completes fun r s => s = if r < x.n then x.acc r x.n else x.init r where
  bounded := by
    refine ⟨x.n * (2 * x.n), fun as n' hexec => ?_⟩
    obtain ⟨bs, hbs, hlength⟩ := Network.exec_mixed hexec
    obtain ⟨pos, h, -, hweight⟩ := run hbs
    have := h.weight_le
    omega
  free as n' hexec hstop r := by
    obtain ⟨bs, hbs, -⟩ := Network.exec_mixed hexec
    obtain ⟨pos, h, rfl, -⟩ := run hbs
    exact ⟨_, conf_end h fun hr => h.free hstop hr⟩
  right as n' hexec r s hdone := by
    obtain ⟨bs, hbs, -⟩ := Network.exec_mixed hexec
    obtain ⟨pos, h, rfl, -⟩ := run hbs
    have hend : r < x.n → x.n ≤ (pos r).next := fun hr => by
      by_contra hn
      rw [conf_procs hr] at hdone
      by_cases hs : Sends r (pos r)
      · rw [code_send hr (by omega) (h.other r hr) hs] at hdone
        cases hdone
      · obtain ⟨next, hcode, -⟩ := code_recv hr (not_le.1 hn) (h.other r hr) hs
        rw [hcode] at hdone
        cases hdone
    rw [conf_end h hend] at hdone
    cases hdone
    rfl

end States

end Exchange

end FlagCX.Lib
