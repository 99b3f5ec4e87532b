import Mathlib.Data.List.Forall2
import FlagCX.Lib.Network

/-!
# What the processes of a network have done

* `Path` : a process has become another one, and what it has sent, got and recorded on the way.
* `Path.bind`, `Path.forM` : a path of a sequence of processes is within one of them.
* `Network.histories` : in every run each process has followed a path, and what it has sent on a channel is what the other end
  has got followed by what the channel holds.
-/

namespace FlagCX.Lib
open Function List Option

variable {γ : Type}

theorem flatMap_single {β : Type} {l : List β} (hnodup : l.Nodup) {x : β} (hx : x ∈ l) {f : β → List γ}
    (hf : ∀ y ∈ l, y ≠ x → f y = []) : l.flatMap f = f x := by
  induction l with
  | nil => cases hx
  | cons y l ih =>
    obtain ⟨hy, hnodup⟩ := nodup_cons.1 hnodup
    rw [flatMap_cons]
    rcases mem_cons.1 hx with rfl | hx
    · have hrest : l.flatMap f = [] := flatMap_eq_nil_iff.2 fun z hz =>
        hf z (mem_cons_of_mem _ hz) fun heq => hy (heq ▸ hz)
      rw [hrest, append_nil]
    · rw [hf y mem_cons_self fun heq => hy (heq ▸ hx), nil_append]
      exact ih hnodup hx fun z hz => hf z (mem_cons_of_mem _ hz)

/-- What a process does. -/
inductive Event (ι π μ ν : Type) where
  | noted (v : ν)
  | sent (dst : ι) (port : π) (m : μ)
  | got (src : ι) (port : π) (m : μ)

section Path
variable {ι π μ ν ε α β : Type}

/-- A process becomes another one. -/
inductive Path : Proc ι π μ ν ε α → List (Event ι π μ ν) → Proc ι π μ ν ε α → Prop
  | refl (p) : Path p [] p
  | note {v next h q} : Path next h q → Path (.note v next) (.noted v :: h) q
  | send {dst port m next h q} : Path next h q → Path (.send dst port m next) (.sent dst port m :: h) q
  | recv {src port next m h q} : Path (next m) h q → Path (.recv src port next) (.got src port m :: h) q

variable {p q : Proc ι π μ ν ε α} {h' : List (Event ι π μ ν)} {h : List (Event ι π μ ν)}

theorem Path.trans {r : Proc ι π μ ν ε α} (hp : Path p h q) (hq : Path q h' r) : Path p (h ++ h') r := by
  induction hp with
  | refl => exact hq
  | note _ ih => exact .note (ih hq)
  | send _ ih => exact .send (ih hq)
  | recv _ ih => exact .recv (ih hq)

theorem Path.done_inv {a : α} (hp : Path (.done a) h q) : h = [] ∧ q = .done a := by
  cases hp
  exact ⟨rfl, rfl⟩

variable {x : Proc ι π μ ν ε α}

theorem Path.bind {f : α → Proc ι π μ ν ε β} {q : Proc ι π μ ν ε β}
    (hp : Path (x >>= f) h q) : (∃ x', Path x h x' ∧ q = x' >>= f) ∨
      ∃ a h₁ h₂, h = h₁ ++ h₂ ∧ Path x h₁ (.done a) ∧ Path (f a) h₂ q := by
  induction x generalizing h with
  | done a => exact .inr ⟨a, [], h, rfl, .refl _, hp⟩
  | stop e =>
    cases hp
    exact .inl ⟨.stop e, .refl _, rfl⟩
  | note v next ih =>
    cases hp with
    | refl => exact .inl ⟨.note v next, .refl _, rfl⟩
    | note hp =>
      rcases ih hp with ⟨x', hx', rfl⟩ | ⟨a, h₁, h₂, rfl, hx, hf⟩
      · exact .inl ⟨x', .note hx', rfl⟩
      · exact .inr ⟨a, .noted v :: h₁, h₂, rfl, .note hx, hf⟩
  | send dst port m next ih =>
    cases hp with
    | refl => exact .inl ⟨.send dst port m next, .refl _, rfl⟩
    | send hp =>
      rcases ih hp with ⟨x', hx', rfl⟩ | ⟨a, h₁, h₂, rfl, hx, hf⟩
      · exact .inl ⟨x', .send hx', rfl⟩
      · exact .inr ⟨a, .sent dst port m :: h₁, h₂, rfl, .send hx, hf⟩
  | recv src port next ih =>
    cases hp with
    | refl => exact .inl ⟨.recv src port next, .refl _, rfl⟩
    | recv hp =>
      rcases ih _ hp with ⟨x', hx', rfl⟩ | ⟨a, h₁, h₂, rfl, hx, hf⟩
      · exact .inl ⟨x', .recv hx', rfl⟩
      · exact .inr ⟨a, .got src port _ :: h₁, h₂, rfl, .recv hx, hf⟩

theorem Path.bind_done {f : α → Proc ι π μ ν ε β} {b : β}
    (hp : Path (x >>= f) h (.done b)) : ∃ a h₁ h₂, h = h₁ ++ h₂ ∧ Path x h₁ (.done a) ∧ Path (f a) h₂ (.done b) := by
  rcases hp.bind with ⟨x', hx, hdone⟩ | hsplit
  · cases x' with
    | done a =>
      rw [Proc.done_bind] at hdone
      exact ⟨a, h, [], (append_nil h).symm, hx, by rw [← hdone]; exact .refl _⟩
    | stop e => cases hdone
    | note v next => cases hdone
    | send dst port m next => cases hdone
    | recv src port next => cases hdone
  · exact hsplit

variable {f : γ → Proc ι π μ ν ε PUnit} {xs : List γ}

theorem Path.forM_done (hp : Path (xs.forM f) h (.done ⟨⟩)) :
    ∃ hs, h = hs.flatten ∧ List.Forall₂ (fun x h => Path (f x) h (.done ⟨⟩)) xs hs := by
  induction xs generalizing h with
  | nil =>
    obtain ⟨rfl, -⟩ := hp.done_inv
    exact ⟨[], rfl, .nil⟩
  | cons x xs ih =>
    obtain ⟨_, h₁, h₂, rfl, hx, hxs⟩ := Path.bind_done hp
    obtain ⟨hs, rfl, hall⟩ := ih hxs
    exact ⟨h₁ :: hs, rfl, .cons hx hall⟩

theorem Path.bind_run {f : α → Proc ι π μ ν ε β} {a : α}
    {q : Proc ι π μ ν ε β} (hx : Path x h p) (hp : p = .done a) (hf : Path (f a) h' q) : Path (x >>= f) (h ++ h') q := by
  induction hx with
  | refl =>
    rw [hp]
    exact hf
  | note _ ih => exact .note (ih hp)
  | send _ ih => exact .send (ih hp)
  | recv _ ih => exact .recv (ih hp)

theorem Path.forM_mem (hp : Path (xs.forM f) h (.done ⟨⟩)) {x : γ} (hx : x ∈ xs) :
    ∃ h₁ h' h₂, h = h₁ ++ (h' ++ h₂) ∧ Path (f x) h' (.done ⟨⟩) := by
  induction xs generalizing h with
  | nil => cases hx
  | cons y xs ih =>
    obtain ⟨_, h₁, h₂, rfl, hy, hxs⟩ := Path.bind_done hp
    rcases mem_cons.1 hx with rfl | hx
    · exact ⟨[], h₁, h₂, rfl, hy⟩
    · obtain ⟨h₃, h', h₄, rfl, hx⟩ := ih hxs hx
      exact ⟨h₁ ++ h₃, h', h₄, (append_assoc _ _ _).symm, hx⟩

theorem Path.forM_run {h : γ → List (Event ι π μ ν)}
    (hf : ∀ x ∈ xs, Path (f x) (h x) (.done ⟨⟩)) : Path (xs.forM f) (xs.flatMap h) (.done ⟨⟩) := by
  induction xs with
  | nil => exact .refl _
  | cons x xs ih => exact Path.bind_run (hf x mem_cons_self) rfl (ih fun y hy => hf y (mem_cons_of_mem _ hy))

theorem Path.foldlM_run {σ : Type} {f : σ → Nat → Proc ι π μ ν ε σ} (state : Nat → σ) {h : Nat → List (Event ι π μ ν)} {n : Nat}
    (hf : ∀ i < n, Path (f (state i) i) (h i) (.done (state (i + 1)))) :
    Path ((List.range n).foldlM f (state 0)) ((List.range n).flatMap h) (.done (state n)) := by
  induction n with
  | zero => exact .refl _
  | succ n ih =>
    rw [range_succ, foldlM_append, flatMap_append, flatMap_singleton]
    refine Path.bind_run (ih fun i hi => hf i (Nat.lt_succ_of_lt hi)) rfl ?_
    simp only [foldlM_cons, foldlM_nil, bind_pure]
    exact hf n (Nat.lt_succ_self n)

theorem Path.foldlM_done {σ : Type} {f : σ → γ → Proc ι π μ ν ε σ} {Q : σ → Prop} {s s' : σ} (hp : Path (xs.foldlM f s) h (.done s'))
    (hround : ∀ s, ∀ x ∈ xs, ∀ h s', Path (f s x) h (.done s') → Q s → Q s') (hs : Q s) : Q s' := by
  induction xs generalizing s h with
  | nil =>
    obtain ⟨-, hdone⟩ := hp.done_inv
    cases hdone
    exact hs
  | cons x xs ih =>
    obtain ⟨s₁, h₁, h₂, -, hfirst, hrest⟩ := hp.bind_done
    exact ih hrest (fun s y hy => hround s y (mem_cons_of_mem _ hy)) (hround s x mem_cons_self _ _ hfirst hs)

theorem Path.forM
    {q : Proc ι π μ ν ε PUnit} (hp : Path (xs.forM f) h q) : ∃ past hs rest h', xs = past ++ rest ∧ h = hs.flatten ++ h' ∧
      List.Forall₂ (fun x h => Path (f x) h (.done ⟨⟩)) past hs ∧
      (rest = [] ∧ h' = [] ∧ q = .done ⟨⟩ ∨ ∃ x rest' q', rest = x :: rest' ∧ Path (f x) h' q' ∧
        q = q' >>= fun _ => rest'.forM f) := by
  induction xs generalizing h with
  | nil =>
    obtain ⟨rfl, rfl⟩ := hp.done_inv
    exact ⟨[], [], [], [], rfl, rfl, .nil, .inl ⟨rfl, rfl, rfl⟩⟩
  | cons x xs ih =>
    rcases Path.bind hp with ⟨q', hq', rfl⟩ | ⟨_, h₁, h₂, rfl, hx, hxs⟩
    · exact ⟨[], [], x :: xs, h, rfl, rfl, .nil, .inr ⟨x, xs, q', rfl, hq', rfl⟩⟩
    · obtain ⟨past, hs, rest, h', rfl, rfl, hpast, hrest⟩ := ih hxs
      exact ⟨x :: past, h₁ :: hs, rest, h', rfl, by simp, .cons hx hpast, hrest⟩

/-! ## Records, messages sent and messages got -/

def notesOf (h : List (Event ι π μ ν)) : List ν := h.filterMap fun | .noted v => some v | _ => none

variable [DecidableEq ι] [DecidableEq π]

/-- The messages sent to `dst` through a port. -/
def sentTo (dst : ι) (port : π) (h : List (Event ι π μ ν)) : List μ :=
  h.filterMap fun | .sent dst' port' m => if dst' = dst ∧ port' = port then some m else none | _ => none

/-- The messages got from `src` through a port. -/
def gotFrom (src : ι) (port : π) (h : List (Event ι π μ ν)) : List μ :=
  h.filterMap fun | .got src' port' m => if src' = src ∧ port' = port then some m else none | _ => none

omit [DecidableEq ι] [DecidableEq π] in
@[simp] theorem notesOf_append (h h' : List (Event ι π μ ν)) : notesOf (h ++ h') = notesOf h ++ notesOf h' :=
  filterMap_append

@[simp] theorem sentTo_append (dst : ι) (port : π) (h h' : List (Event ι π μ ν)) :
    sentTo dst port (h ++ h') = sentTo dst port h ++ sentTo dst port h' := filterMap_append

@[simp] theorem gotFrom_append (src : ι) (port : π) (h h' : List (Event ι π μ ν)) :
    gotFrom src port (h ++ h') = gotFrom src port h ++ gotFrom src port h' := filterMap_append

@[simp] theorem sentTo_flatMap (dst : ι) (port : π) (xs : List γ) (h : γ → List (Event ι π μ ν)) :
    sentTo dst port (xs.flatMap h) = xs.flatMap fun x => sentTo dst port (h x) := filterMap_flatMap

@[simp] theorem gotFrom_flatMap (src : ι) (port : π) (xs : List γ) (h : γ → List (Event ι π μ ν)) :
    gotFrom src port (xs.flatMap h) = xs.flatMap fun x => gotFrom src port (h x) := filterMap_flatMap

omit [DecidableEq ι] [DecidableEq π] in
@[simp] theorem notesOf_flatMap (xs : List γ) (h : γ → List (Event ι π μ ν)) :
    notesOf (xs.flatMap h) = xs.flatMap fun x => notesOf (h x) := filterMap_flatMap

end Path

/-! ## Histories of a run -/

namespace Network
variable {ι π μ ν ε α : Type} [DecidableEq ι] [DecidableEq π]

/-- The processes of `n` have come to those of `n'` by these histories. -/
structure Histories (n n' : Network ι π μ ν ε α) (h : ι → List (Event ι π μ ν)) : Prop where
  path : ∀ i, Path (n.procs i) (h i) (n'.procs i)
  notes : ∀ i, n'.notes i = n.notes i ++ notesOf (h i)
  chans : ∀ i j port, n.chans (i, j, port) ++ sentTo j port (h i) = gotFrom i port (h j) ++ n'.chans (i, j, port)

variable {n n' n'' : Network ι π μ ν ε α} {h : ι → List (Event ι π μ ν)}

theorem Histories.snoc (hh : Histories n n' h) {i : ι} {e : Event ι π μ ν} (hpath : Path (n'.procs i) [e] (n''.procs i))
    (hother : ∀ j, j ≠ i → n''.procs j = n'.procs j) (hnotes : n''.notes = update n'.notes i (n'.notes i ++ notesOf [e]))
    (hchans : ∀ j k port, n'.chans (j, k, port) ++ (if j = i then sentTo k port [e] else []) =
      (if k = i then gotFrom j port [e] else []) ++ n''.chans (j, k, port)) :
    Histories n n'' (update h i (h i ++ [e])) where
  path j := by
    by_cases hj : j = i
    · subst hj
      rw [update_self]
      exact (hh.path j).trans hpath
    · rw [update_of_ne hj, hother j hj]
      exact hh.path j
  notes j := by
    rw [hnotes]
    by_cases hj : j = i
    · subst hj
      rw [update_self, update_self, hh.notes, notesOf_append, append_assoc]
    · rw [update_of_ne hj, update_of_ne hj]
      exact hh.notes j
  chans j k port := by
    have hsent : sentTo k port (update h i (h i ++ [e]) j) =
        sentTo k port (h j) ++ if j = i then sentTo k port [e] else [] := by
      by_cases hj : j = i
      · subst hj
        rw [update_self, sentTo_append, if_pos rfl]
      · rw [update_of_ne hj, if_neg hj, append_nil]
    have hgot : gotFrom j port (update h i (h i ++ [e]) k) =
        gotFrom j port (h k) ++ if k = i then gotFrom j port [e] else [] := by
      by_cases hk : k = i
      · subst hk
        rw [update_self, gotFrom_append, if_pos rfl]
      · rw [update_of_ne hk, if_neg hk, append_nil]
    rw [hsent, hgot, ← append_assoc, hh.chans, append_assoc, append_assoc, hchans]

theorem Histories.step (hh : Histories n n' h) {i : ι} (hstep : n'.step i = some n'') :
    ∃ e, Histories n n'' (update h i (h i ++ [e])) := by
  obtain ⟨v, next, hp, rfl⟩ | ⟨dst, port, m, next, hp, rfl⟩ | ⟨src, port, next, m, rest, hp, hc, rfl⟩ := step_cases hstep
  · refine ⟨.noted v, hh.snoc ?_ (fun j hj => update_of_ne hj _ _) rfl fun j k port => ?_⟩
    · rw [hp]
      exact (Path.note (.refl _)).trans (by dsimp only; rw [update_self]; exact .refl _)
    · simp [sentTo, gotFrom]
  · refine ⟨.sent dst port m, hh.snoc ?_ (fun j hj => update_of_ne hj _ _) ?_ fun j k port' => ?_⟩
    · rw [hp]
      exact (Path.send (.refl _)).trans (by dsimp only; rw [update_self]; exact .refl _)
    · simp [notesOf]
    · by_cases hc : (j, k, port') = (i, dst, port)
      · cases hc
        dsimp only
        simp [sentTo, gotFrom]
      · dsimp only
        rw [update_of_ne hc]
        simp only [Prod.mk.injEq, not_and] at hc
        simp only [sentTo, gotFrom, filterMap_cons, filterMap_nil, ite_self, nil_append]
        split_ifs with hj hk
        · exact absurd hk.2.symm (hc hj hk.1.symm)
        · exact append_nil _
        · exact append_nil _
  · refine ⟨.got src port m, hh.snoc ?_ (fun j hj => update_of_ne hj _ _) ?_ fun j k port' => ?_⟩
    · rw [hp]
      exact (Path.recv (.refl _)).trans (by dsimp only; rw [update_self]; exact .refl _)
    · simp [notesOf]
    · by_cases hc' : (j, k, port') = (src, i, port)
      · cases hc'
        dsimp only
        rw [update_self, hc]
        simp [sentTo, gotFrom]
      · dsimp only
        rw [update_of_ne hc']
        simp only [Prod.mk.injEq, not_and] at hc'
        simp only [sentTo, gotFrom, filterMap_cons, filterMap_nil, ite_self, append_nil]
        split_ifs with hk hj
        · exact absurd hj.2.symm (hc' hj.1.symm hk)
        · rfl
        · rfl

/-- **The histories of a run.** -/
theorem histories {as : List ι} (hexec : exec step n as = some n') :
    ∃ h, Histories n n' h ∧ ∀ i, (h i).length = as.count i := by
  have hextend : ∀ {n' : Network ι π μ ν ε α} {h : ι → List (Event ι π μ ν)} {as : List ι} {n''},
      Histories n n' h → exec step n' as = some n'' →
      ∃ h', Histories n n'' h' ∧ ∀ i, (h' i).length = (h i).length + as.count i := by
    intro n' h as n'' hh hexec
    induction as generalizing n' h with
    | nil =>
      cases hexec
      exact ⟨h, hh, fun _ => rfl⟩
    | cons a as ih =>
      obtain ⟨n₁, hstep, hexec⟩ := bind_eq_some_iff.1 hexec
      obtain ⟨e, hh₁⟩ := hh.step hstep
      obtain ⟨h', hh', hlength⟩ := ih hh₁ hexec
      refine ⟨h', hh', fun i => ?_⟩
      rw [hlength, count_cons]
      by_cases hi : i = a
      · subst hi
        rw [update_self, length_append, beq_self_eq_true, if_pos rfl, length_singleton]
        omega
      · rw [update_of_ne hi, if_neg (by simpa using fun heq => hi heq.symm)]
        rfl
  have hstart : Histories n n fun _ => [] := ⟨fun _ => .refl _, fun _ => (append_nil _).symm, fun _ _ _ => append_nil _⟩
  obtain ⟨h, hh, hlength⟩ := hextend hstart hexec
  exact ⟨h, hh, fun i => (hlength i).trans (Nat.zero_add _)⟩

end Network

end FlagCX.Lib
