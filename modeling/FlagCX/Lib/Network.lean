import Mathlib.Logic.Function.Basic
import FlagCX.Lib.Guarded

/-!
# Networks of sequential processes

Processes send messages to each other over first-in first-out channels, one for each sender, receiver and port. A process reads
only the channels that end at it and writes only those that begin at it, so the steps of two processes commute.

* `Commutes.completes` : where steps of different labels commute and one run comes to an end, every run can be continued to that
  end, and in the same number of steps.
* `Proc`               : a process; `Proc` is a monad.
* `Network.step`       : one step of a process. `Network.commutes` says that the steps commute.
* `Network.mixed`, `Network.blocked` : steps in which a message may be handed over without a channel, and those that are left
  when it must be.
-/

namespace FlagCX.Lib
open Function List Option

/-! ## Steps that commute -/

section Commuting
variable {σ α : Type} {step : σ → α → Option σ}

/-- Two steps of different labels can be taken in either order. -/
def Commutes (step : σ → α → Option σ) : Prop :=
  ∀ {s a b s₁ s₂}, a ≠ b → step s a = some s₁ → step s b = some s₂ → ∃ s₃, step s₁ b = some s₃ ∧ step s₂ a = some s₃

def Stopped (step : σ → α → Option σ) (s : σ) : Prop := ∀ a, step s a = none

variable {s f : σ}

theorem exists_stopped {bound : Nat} (hbound : ∀ as s', exec step s as = some s' → as.length ≤ bound) :
    ∃ as s', exec step s as = some s' ∧ Stopped step s' := by
  have hgo : ∀ k as s', exec step s as = some s' → bound - as.length = k → ∃ as s', exec step s as = some s' ∧ Stopped step s' := by
    intro k
    induction k with
    | zero =>
      intro as s' hrun hk
      refine ⟨as, s', hrun, fun a => ?_⟩
      by_contra hstep
      obtain ⟨s'', hstep⟩ := ne_none_iff_exists'.1 hstep
      have hmore : exec step s (as ++ [a]) = some s'' := by
        rw [exec_append, hrun, bind_some, exec_singleton]
        exact hstep
      have hlength := hbound _ _ hmore
      rw [length_append, length_singleton] at hlength
      omega
    | succ k ih =>
      intro as s' hrun hk
      by_cases hstop : Stopped step s'
      · exact ⟨as, s', hrun, hstop⟩
      · obtain ⟨a, hstep⟩ := not_forall.1 hstop
        obtain ⟨s'', hstep⟩ := ne_none_iff_exists'.1 hstep
        refine ih (as ++ [a]) s'' ?_ ?_
        · rw [exec_append, hrun, bind_some, exec_singleton]
          exact hstep
        · rw [length_append, length_singleton]
          omega
  exact hgo _ [] s rfl rfl

variable {as : List α}

section

variable {s' : σ} (h : Commutes step) (hexec : exec step s as = some f) (hstop : Stopped step f)
include h hexec hstop

theorem Commutes.cancel {a : α} (hstep : step s a = some s') : ∃ bs, exec step s' bs = some f ∧ bs.length + 1 = as.length := by
  induction as generalizing s s' with
  | nil =>
    cases hexec
    rw [hstop] at hstep
    cases hstep
  | cons b as ih =>
    obtain ⟨s₁, hfirst, hexec⟩ := bind_eq_some_iff.1 hexec
    by_cases hab : a = b
    · subst hab
      obtain rfl := some.inj (hstep.symm.trans hfirst)
      exact ⟨as, hexec, rfl⟩
    · obtain ⟨s₂, hb, ha⟩ := h hab hstep hfirst
      obtain ⟨bs, hbs, hlength⟩ := ih hexec ha
      refine ⟨b :: bs, ?_, congrArg (· + 1) hlength⟩
      rw [exec, hb]
      exact hbs

/-- If one run comes to an end, every run can be continued to that end. -/
theorem Commutes.completes {bs : List α} (hrun : exec step s bs = some s') :
    ∃ cs, exec step s' cs = some f ∧ bs.length + cs.length = as.length := by
  induction bs generalizing s as with
  | nil =>
    cases hrun
    exact ⟨as, hexec, Nat.zero_add _⟩
  | cons b bs ih =>
    obtain ⟨s₁, hfirst, hrun⟩ := bind_eq_some_iff.1 hrun
    obtain ⟨as', hexec', hlength'⟩ := h.cancel hexec hstop hfirst
    obtain ⟨cs, hcs, hlength⟩ := ih hexec' hrun
    refine ⟨cs, hcs, ?_⟩
    rw [length_cons]
    omega

theorem Commutes.unique {bs : List α} (hrun : exec step s bs = some s') (hstop' : Stopped step s') : s' = f := by
  obtain ⟨cs, hcs, -⟩ := h.completes hexec hstop hrun
  cases cs with
  | nil => exact some.inj hcs
  | cons c cs =>
    rw [exec, hstop'] at hcs
    cases hcs

end

end Commuting

/-! ## Processes -/

/-- A process with channels to and from `ι`: it ends with a result or an error, records something, sends a message, or waits for
one. -/
inductive Proc (ι π μ ν ε : Type) (α : Type) : Type where
  | done (a : α)
  | stop (e : ε)
  | note (v : ν) (next : Proc ι π μ ν ε α)
  | send (dst : ι) (port : π) (m : μ) (next : Proc ι π μ ν ε α)
  | recv (src : ι) (port : π) (next : μ → Proc ι π μ ν ε α)

namespace Proc
variable {ι π μ ν ε α β : Type}

def bind : Proc ι π μ ν ε α → (α → Proc ι π μ ν ε β) → Proc ι π μ ν ε β
  | done a, f => f a
  | stop e, _ => stop e
  | note v next, f => note v (next.bind f)
  | send dst port m next, f => send dst port m (next.bind f)
  | recv src port next, f => recv src port fun m => (next m).bind f

instance : Monad (Proc ι π μ ν ε) where
  pure := done
  bind := bind

@[simp] theorem done_bind (a : α) (f : α → Proc ι π μ ν ε β) : (done a : Proc ι π μ ν ε α) >>= f = f a := rfl

@[simp] theorem note_bind (v : ν) (next : Proc ι π μ ν ε α) (f : α → Proc ι π μ ν ε β) :
    note v next >>= f = note v (next >>= f) := rfl

@[simp] theorem send_bind (dst : ι) (port : π) (m : μ) (next : Proc ι π μ ν ε α) (f : α → Proc ι π μ ν ε β) :
    send dst port m next >>= f = send dst port m (next >>= f) := rfl

@[simp] theorem recv_bind (src : ι) (port : π) (next : μ → Proc ι π μ ν ε α) (f : α → Proc ι π μ ν ε β) :
    recv src port next >>= f = recv src port fun m => next m >>= f := rfl

theorem bind_done (x : Proc ι π μ ν ε α) : x >>= done = x := by
  induction x with
  | done a => rfl
  | stop e => rfl
  | note v next ih => rw [note_bind, ih]
  | send dst port m next ih => rw [send_bind, ih]
  | recv src port next ih => rw [recv_bind, funext ih]

theorem bind_assoc {γ : Type} (x : Proc ι π μ ν ε α) (f : α → Proc ι π μ ν ε β) (g : β → Proc ι π μ ν ε γ) :
    x >>= f >>= g = x >>= fun a => f a >>= g := by
  induction x with
  | done a => rfl
  | stop e => rfl
  | note v next ih => rw [note_bind, note_bind, note_bind, ih]
  | send dst port m next ih => rw [send_bind, send_bind, send_bind, ih]
  | recv src port next ih => rw [recv_bind, recv_bind, recv_bind, funext ih]

instance : LawfulMonad (Proc ι π μ ν ε) := .mk' _ (fun x => bind_done x) (fun _ _ => rfl) bind_assoc

end Proc

theorem foldlM_congr {m : Type → Type} [Monad m] {α β : Type} {f g : β → α → m β} {l : List α}
    (h : ∀ s, ∀ a ∈ l, f s a = g s a) (s : β) : l.foldlM f s = l.foldlM g s := by
  induction l generalizing s with
  | nil => rfl
  | cons a l ih =>
    rw [foldlM_cons, foldlM_cons, h s a mem_cons_self]
    exact congrArg _ (funext fun s' => ih (fun s a ha => h s a (mem_cons_of_mem _ ha)) s')

/-! ## Networks -/

/-- The processes, what the channels hold, and what each process has recorded. -/
@[ext] structure Network (ι π μ ν ε α : Type) where
  procs : ι → Proc ι π μ ν ε α
  chans : ι × ι × π → List μ
  notes : ι → List ν

namespace Network
variable {ι π μ ν ε α : Type} [DecidableEq ι] [DecidableEq π]

def start (procs : ι → Proc ι π μ ν ε α) : Network ι π μ ν ε α := ⟨procs, fun _ => [], fun _ => []⟩

def step (n : Network ι π μ ν ε α) (i : ι) : Option (Network ι π μ ν ε α) :=
  match n.procs i with
  | .done _ => none
  | .stop _ => none
  | .note v next => some { n with procs := update n.procs i next, notes := update n.notes i (n.notes i ++ [v]) }
  | .send dst port m next =>
    some { n with
      procs := update n.procs i next, chans := update n.chans (i, dst, port) (n.chans (i, dst, port) ++ [m]) }
  | .recv src port next =>
    match n.chans (src, i, port) with
    | [] => none
    | m :: rest => some { n with procs := update n.procs i (next m), chans := update n.chans (src, i, port) rest }

section Steps
variable {n n' : Network ι π μ ν ε α} {i : ι}

theorem step_done {a : α} (h : n.procs i = .done a) : n.step i = none := by rw [step, h]

variable {next : Proc ι π μ ν ε α}

theorem step_note {v : ν} (h : n.procs i = .note v next) :
    n.step i = some { n with procs := update n.procs i next, notes := update n.notes i (n.notes i ++ [v]) } := by
  rw [step, h]

theorem step_send {dst : ι} {port : π} {m : μ} (h : n.procs i = .send dst port m next) : n.step i = some { n with
      procs := update n.procs i next, chans := update n.chans (i, dst, port) (n.chans (i, dst, port) ++ [m]) } := by
  rw [step, h]

theorem step_recv {src : ι} {port : π} {next : μ → Proc ι π μ ν ε α} (h : n.procs i = .recv src port next) {m : μ}
    {l : List μ} (hchan : n.chans (src, i, port) = m :: l) :
    n.step i = some { n with procs := update n.procs i (next m), chans := update n.chans (src, i, port) l } := by
  rw [step, h]
  dsimp only
  rw [hchan]

theorem step_cases (h : n.step i = some n') :
    (∃ v next, n.procs i = .note v next ∧
      n' = { n with procs := update n.procs i next, notes := update n.notes i (n.notes i ++ [v]) }) ∨
    (∃ dst port m next, n.procs i = .send dst port m next ∧ n' = { n with
      procs := update n.procs i next, chans := update n.chans (i, dst, port) (n.chans (i, dst, port) ++ [m]) }) ∨
    (∃ src port next m rest, n.procs i = .recv src port next ∧ n.chans (src, i, port) = m :: rest ∧
      n' = { n with procs := update n.procs i (next m), chans := update n.chans (src, i, port) rest }) := by
  cases hp : n.procs i with
  | done a =>
    rw [step, hp] at h
    cases h
  | stop e =>
    rw [step, hp] at h
    cases h
  | note v next =>
    rw [step_note hp] at h
    exact .inl ⟨v, next, rfl, (some.inj h).symm⟩
  | send dst port m next =>
    rw [step_send hp] at h
    exact .inr (.inl ⟨dst, port, m, next, rfl, (some.inj h).symm⟩)
  | recv src port next =>
    cases hchan : n.chans (src, i, port) with
    | nil =>
      rw [step, hp] at h
      dsimp only at h
      rw [hchan] at h
      cases h
    | cons m rest =>
      rw [step_recv hp hchan] at h
      exact .inr (.inr ⟨src, port, next, m, rest, rfl, hchan, (some.inj h).symm⟩)

end Steps

theorem commutes : Commutes (step : Network ι π μ ν ε α → ι → Option (Network ι π μ ν ε α)) := by
  intro n i j n₁ n₂ hij hi hj
  have hprocs : ∀ p q : Proc ι π μ ν ε α, update (update n.procs i p) j q = update (update n.procs j q) i p :=
    fun p q => update_comm hij p q n.procs
  have hself : ∀ p : Proc ι π μ ν ε α, update n.procs i p j = n.procs j := fun p => update_of_ne hij.symm p n.procs
  have hself' : ∀ p : Proc ι π μ ν ε α, update n.procs j p i = n.procs i := fun p => update_of_ne hij p n.procs
  have hnotes : ∀ vs ws : List ν, update (update n.notes i vs) j ws = update (update n.notes j ws) i vs :=
    fun vs ws => update_comm hij vs ws n.notes
  have hnote : ∀ vs : List ν, update n.notes i vs j = n.notes j := fun vs => update_of_ne hij.symm vs n.notes
  have hnote' : ∀ vs : List ν, update n.notes j vs i = n.notes i := fun vs => update_of_ne hij vs n.notes
  have happart : ∀ {c d : ι × ι × π} (l l' : List μ), c ≠ d →
      update n.chans c l d = n.chans d ∧ update n.chans d l' c = n.chans c ∧
        update (update n.chans c l) d l' = update (update n.chans d l') c l := by
    intro c d l l' hne
    exact ⟨update_of_ne hne.symm _ _, update_of_ne hne _ _, update_comm hne _ _ _⟩
  obtain ⟨v, next, hp, rfl⟩ | ⟨dst, port, m, next, hp, rfl⟩ | ⟨src, port, next, m, rest, hp, hc, rfl⟩ := step_cases hi <;>
  obtain ⟨v', next', hp', rfl⟩ | ⟨dst', port', m', next', hp', rfl⟩ | ⟨src', port', next', m', rest', hp', hc', rfl⟩ :=
    step_cases hj
  · refine ⟨_, step_note ((hself _).trans hp'), (step_note ((hself' _).trans hp)).trans ?_⟩
    simp only [hprocs, hnotes, hnote, hnote']
  · refine ⟨_, step_send ((hself _).trans hp'), (step_note ((hself' _).trans hp)).trans ?_⟩
    simp only [hprocs]
  · refine ⟨_, step_recv ((hself _).trans hp') (by exact hc'), (step_note ((hself' _).trans hp)).trans ?_⟩
    simp only [hprocs]
  · refine ⟨_, step_note ((hself _).trans hp'), (step_send ((hself' _).trans hp)).trans ?_⟩
    simp only [hprocs]
  · obtain ⟨h₁, h₂, h₃⟩ := happart (n.chans (i, dst, port) ++ [m]) (n.chans (j, dst', port') ++ [m'])
      (c := (i, dst, port)) (d := (j, dst', port')) (by simp [hij])
    refine ⟨_, step_send ((hself _).trans hp'), (step_send ((hself' _).trans hp)).trans ?_⟩
    simp only [hprocs, h₁, h₂, h₃]
  · by_cases hsame : (i, dst, port) = (src', j, port')
    · obtain ⟨rfl, rfl, rfl⟩ : i = src' ∧ dst = j ∧ port = port' := by simpa using hsame
      refine ⟨_, step_recv (m := m') (l := rest' ++ [m]) ((hself _).trans hp') ?_, ?_⟩
      · exact (update_self _ _ _).trans (by rw [hc']; rfl)
      · rw [step_send ((hself' _).trans hp)]
        simp only [hprocs, update_self, update_idem]
    · obtain ⟨h₁, h₂, h₃⟩ := happart (n.chans (i, dst, port) ++ [m]) rest' hsame
      refine ⟨_, step_recv ((hself _).trans hp') (h₁.trans hc'), (step_send ((hself' _).trans hp)).trans ?_⟩
      simp only [hprocs, h₂, h₃]
  · refine ⟨_, step_note ((hself _).trans hp'), (step_recv ((hself' _).trans hp) (by exact hc)).trans ?_⟩
    simp only [hprocs]
  · by_cases hsame : (src, i, port) = (j, dst', port')
    · obtain ⟨rfl, rfl, rfl⟩ : src = j ∧ i = dst' ∧ port = port' := by simpa using hsame
      have hchan : update n.chans (src, i, port) (n.chans (src, i, port) ++ [m']) (src, i, port) = m :: (rest ++ [m']) :=
        (update_self _ _ _).trans (by rw [hc]; rfl)
      refine ⟨_, step_send ((hself _).trans hp'), (step_recv ((hself' _).trans hp) hchan).trans ?_⟩
      simp only [hprocs, update_self, update_idem]
    · obtain ⟨h₁, h₂, h₃⟩ := happart rest (n.chans (j, dst', port') ++ [m']) hsame
      refine ⟨_, step_send ((hself _).trans hp'), (step_recv ((hself' _).trans hp) (h₂.trans hc)).trans ?_⟩
      simp only [hprocs, h₁, h₃]
  · obtain ⟨h₁, h₂, h₃⟩ := happart rest rest' (c := (src, i, port)) (d := (src', j, port')) (by simp [hij])
    refine ⟨_, step_recv ((hself _).trans hp') (h₁.trans hc'), (step_recv ((hself' _).trans hp) (h₂.trans hc)).trans ?_⟩
    simp only [hprocs, h₃]

/-! ## Rendezvous -/

/-- A sender hands a message over to a receiver that waits for it. -/
def meet (n : Network ι π μ ν ε α) (i j : ι) : Option (Network ι π μ ν ε α) :=
  match n.procs i, n.procs j with
  | .send dst port m next, .recv src port' next' =>
    if dst = j ∧ src = i ∧ port' = port ∧ n.chans (i, j, port) = [] then
      some { n with procs := update (update n.procs i next) j (next' m) }
    else none
  | _, _ => none

/-- Some messages are held in channels, and some are handed over. -/
def mixed (n : Network ι π μ ν ε α) : ι ⊕ ι × ι → Option (Network ι π μ ν ε α)
  | .inl i => n.step i
  | .inr (i, j) => n.meet i j

/-- The steps that are left when a sender waits for its receiver. -/
def blocked (n : Network ι π μ ν ε α) : ι ⊕ ι × ι → Option (Network ι π μ ν ε α)
  | .inl i => match n.procs i with
    | .send _ _ _ _ => none
    | _ => n.step i
  | .inr (i, j) => n.meet i j

section Rendezvous
variable {n n' : Network ι π μ ν ε α} {i j : ι}

theorem meet_step (h : n.meet i j = some n') : ∃ n₁, n.step i = some n₁ ∧ n₁.step j = some n' := by
  rw [meet] at h
  split at h
  case h_2 => cases h
  rename_i dst port m next src port' next' hi hj
  split_ifs at h with hc
  obtain ⟨rfl, rfl, rfl, hchan⟩ := hc
  cases h
  have hne : dst ≠ src := fun heq => by
    rw [heq, hi] at hj
    cases hj
  refine ⟨_, step_send hi, ?_⟩
  refine (step_recv (m := m) (l := []) ((update_of_ne hne _ _).trans hj) ?_).trans ?_
  rotate_left
  · simp only [update_idem, some.injEq, Network.mk.injEq, true_and, and_true]
    rw [← hchan, update_eq_self]
  · dsimp only
    rw [update_self, hchan]
    rfl

theorem exec_mixed {as : List (ι ⊕ ι × ι)} (h : exec mixed n as = some n') :
    ∃ bs, exec step n bs = some n' ∧ as.length ≤ bs.length := by
  induction as generalizing n with
  | nil =>
    cases h
    exact ⟨[], rfl, Nat.le_refl 0⟩
  | cons a as ih =>
    obtain ⟨n₁, hfirst, h⟩ := bind_eq_some_iff.1 h
    obtain ⟨bs, hbs, hlength⟩ := ih h
    cases a with
    | inl i =>
      refine ⟨i :: bs, ?_, Nat.succ_le_succ hlength⟩
      rw [exec, show n.step i = some n₁ from hfirst]
      exact hbs
    | inr ij =>
      obtain ⟨n₂, hi, hj⟩ := meet_step hfirst
      refine ⟨ij.1 :: ij.2 :: bs, ?_, ?_⟩
      · rw [exec, hi, bind_some, exec, hj]
        exact hbs
      · rw [length_cons, length_cons, length_cons]
        omega

theorem mixed_of_blocked {a : ι ⊕ ι × ι} (h : n.blocked a = some n') : n.mixed a = some n' := by
  cases a with
  | inl i =>
    rw [blocked] at h
    split at h
    · cases h
    · exact h
  | inr ij => exact h

/-- The processes come to their ends in every run, whether messages are held or handed over.

* `bounded` : no run goes on for ever;
* `free` : a run does not come to a halt before the ends, not even when no message can be held any more;
* `right` : the results are as they should be. -/
structure Completes (n : Network ι π μ ν ε α) (final : ι → α → Prop) : Prop where
  bounded : ∃ bound, ∀ as n', exec mixed n as = some n' → as.length ≤ bound
  free : ∀ as n', exec mixed n as = some n' → (∀ a, n'.blocked a = none) → ∀ i, ∃ v, n'.procs i = .done v
  right : ∀ as n', exec mixed n as = some n' → ∀ i v, n'.procs i = .done v → final i v

variable {final : ι → α → Prop}

theorem Completes.mono {final' : ι → α → Prop} (h : n.Completes final) (himp : ∀ i v, final i v → final' i v) :
    n.Completes final' :=
  ⟨h.bounded, h.free, fun as n' hexec i v hv => himp i v (h.right as n' hexec i v hv)⟩

/-- There is a run in which every message is handed over at once or held until it is received, and it comes to the ends. -/
theorem Completes.exists_run (h : n.Completes final) :
    ∃ as n', exec mixed n as = some n' ∧ ∀ i, ∃ v, n'.procs i = .done v := by
  obtain ⟨bound, hbound⟩ := h.bounded
  obtain ⟨as, n', hexec, hstop⟩ := exists_stopped hbound
  refine ⟨as, n', hexec, h.free as n' hexec fun a => ?_⟩
  by_contra hsome
  obtain ⟨n'', hstep⟩ := ne_none_iff_exists'.1 hsome
  have hmixed := mixed_of_blocked hstep
  rw [hstop a] at hmixed
  cases hmixed

end Rendezvous

end Network

end FlagCX.Lib
