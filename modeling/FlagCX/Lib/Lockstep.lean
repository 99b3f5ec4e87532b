import FlagCX.Lib.ProcPath

/-!
# Runs in which the processes follow given paths

* `Network.follow` : one process follows a path whose messages are held for it.
* `Network.reach` : all processes follow their paths, in any order.
* `Network.exchange` : each sends messages to its successor, and then receives those of its predecessor.
* `Network.loop` : the processes of a set pass the rounds of their loops together.
* `Network.Settles` : every run ends, and where it ends something holds. One run that ends decides it (`Settles.of_run`).
-/

namespace FlagCX.Lib
open Function List

section Paths
variable {ι π μ ν ε α : Type} {p q q' : Proc ι π μ ν ε α} {e : Event ι π μ ν} {h : List (Event ι π μ ν)}

theorem Path.unique (hq : Path p h q) (hq' : Path p h q') : q = q' := by
  induction hq with
  | refl =>
    cases hq'
    rfl
  | note _ ih =>
    cases hq' with
    | note hq' => exact ih hq'
  | send _ ih =>
    cases hq' with
    | send hq' => exact ih hq'
  | recv _ ih =>
    cases hq' with
    | recv hq' => exact ih hq'

theorem Path.cons_inv (hp : Path p (e :: h) q) : ∃ p', Path p [e] p' ∧ Path p' h q := by
  cases hp with
  | note hp => exact ⟨_, .note (.refl _), hp⟩
  | send hp => exact ⟨_, .send (.refl _), hp⟩
  | recv hp => exact ⟨_, .recv (.refl _), hp⟩

end Paths

namespace Network
variable {ι π μ ν ε α : Type} [DecidableEq ι] [DecidableEq π] {n n' n'' : Network ι π μ ν ε α}
  {h h' : ι → List (Event ι π μ ν)}

theorem Histories.refl (n : Network ι π μ ν ε α) : Histories n n fun _ => [] where
  path _ := .refl _
  notes _ := (append_nil _).symm
  chans _ _ _ := append_nil _

theorem Histories.trans (hh : Histories n n' h) (hh' : Histories n' n'' h') : Histories n n'' fun i => h i ++ h' i where
  path i := (hh.path i).trans (hh'.path i)
  notes i := by rw [hh'.notes, hh.notes, notesOf_append, append_assoc]
  chans i j port := by rw [sentTo_append, gotFrom_append, ← append_assoc, hh.chans, append_assoc, hh'.chans, append_assoc]

theorem Histories.unique (hh : Histories n n' h) (hh' : Histories n n'' h) : n' = n'' := by
  apply Network.ext
  · funext i
    exact (hh.path i).unique (hh'.path i)
  · funext ⟨i, j, port⟩
    exact append_cancel_left ((hh.chans i j port).symm.trans (hh'.chans i j port))
  · funext i
    rw [hh.notes, hh'.notes]

variable {q : Proc ι π μ ν ε α}

theorem Histories.procs (hh : Histories n n' h) {i : ι} (hp : Path (n.procs i) (h i) q) : n'.procs i = q :=
  (hh.path i).unique hp

theorem of_event {i : ι} {e : Event ι π μ ν} (hp : Path (n.procs i) [e] q)
    (hin : ∀ a port, gotFrom a port [e] <+: n.chans (a, i, port)) :
    ∃ n', n.step i = some n' ∧ n'.procs i = q ∧ Histories n n' (update (fun _ => []) i [e]) := by
  obtain ⟨n', hstep⟩ : ∃ n', n.step i = some n' := by
    cases hproc : n.procs i with
    | done a =>
      rw [hproc] at hp
      cases hp
    | stop a =>
      rw [hproc] at hp
      cases hp
    | note v next => exact ⟨_, step_note hproc⟩
    | send dst port m next => exact ⟨_, step_send hproc⟩
    | recv src port next =>
      rw [hproc] at hp
      cases hp with
      | @recv _ _ _ m =>
        obtain ⟨rest, hrest⟩ := hin src port
        refine ⟨_, step_recv (m := m) (l := rest) hproc ?_⟩
        rw [← hrest]
        simp [gotFrom]
  obtain ⟨e', hh⟩ := (Histories.refl n).step hstep
  rw [nil_append] at hh
  have hpath := hh.path i
  rw [update_self] at hpath
  -- what it has done is what it was to do
  have heq : e' = e := by
    cases hproc : n.procs i with
    | done a =>
      rw [hproc] at hp
      cases hp
    | stop a =>
      rw [hproc] at hp
      cases hp
    | note v next | send dst port m next =>
      rw [hproc] at hp hpath
      cases hp
      cases hpath
      rfl
    | recv src port next =>
      rw [hproc] at hp hpath
      cases hp with
      | @recv _ _ _ m =>
        cases hpath with
        | @recv _ _ _ m' =>
          obtain ⟨rest, hrest⟩ := hin src port
          have hchans := hh.chans src i port
          have hnot : sentTo i port (update (fun _ => []) i [.got src port m'] src : List (Event ι π μ ν)) = [] := by
            by_cases hsrc : src = i
            · rw [hsrc, update_self]
              rfl
            · rw [update_of_ne hsrc]
              rfl
          rw [hnot, append_nil, update_self, ← hrest] at hchans
          simp only [gotFrom, filterMap_cons, and_self, if_true, filterMap_nil, cons_append] at hchans
          rw [(cons.inj hchans).1]
  subst heq
  exact ⟨n', hstep, hpath.unique hp, hh⟩

/-- **A process follows a path** whose messages are held for it. -/
theorem follow {i : ι} {l : List (Event ι π μ ν)} (hp : Path (n.procs i) l q)
    (hin : ∀ a port, gotFrom a port l <+: n.chans (a, i, port)) :
    ∃ as n', exec step n as = some n' ∧ Histories n n' (update (fun _ => []) i l) := by
  induction l generalizing n with
  | nil =>
    refine ⟨[], n, rfl, ?_⟩
    rw [update_eq_self_iff.2 rfl]
    exact .refl n
  | cons e l ih =>
    obtain ⟨p', hfirst, hrest⟩ := hp.cons_inv
    have hsplit : ∀ a port, gotFrom a port (e :: l) = gotFrom a port [e] ++ gotFrom a port l := fun a port => by
      rw [← gotFrom_append]
      rfl
    obtain ⟨n₁, hstep, hproc, hh⟩ := of_event hfirst fun a port => (prefix_append _ _).trans (hsplit a port ▸ hin a port)
    have hin₁ : ∀ a port, gotFrom a port l <+: n₁.chans (a, i, port) := fun a port => by
      obtain ⟨rest, hchan⟩ := hin a port
      have hchans := hh.chans a i port
      rw [update_self, ← hchan, hsplit, append_assoc, append_assoc] at hchans
      rw [← append_cancel_left hchans]
      exact prefix_append _ _
    obtain ⟨as, n', hexec, hh'⟩ := ih (hproc ▸ hrest) hin₁
    refine ⟨i :: as, n', by rw [exec, hstep]; exact hexec, ?_⟩
    have htrans := hh.trans hh'
    have heq : (fun j => update (fun _ => []) i [e] j ++ update (fun _ => []) i l j) = update (fun _ => []) i (e :: l) := by
      funext j
      by_cases hj : j = i
      · rw [hj, update_self, update_self, update_self]
        rfl
      · rw [update_of_ne hj, update_of_ne hj, update_of_ne hj]
        rfl
    rwa [heq] at htrans

/-- **The processes of a list follow their paths**, when all that they receive is held already. -/
theorem reach (is : List ι) (hnodup : is.Nodup) (q : ι → Proc ι π μ ν ε α) (hp : ∀ i ∈ is, Path (n.procs i) (h i) (q i))
    (hnot : ∀ i, i ∉ is → h i = []) (hin : ∀ i a port, gotFrom a port (h i) <+: n.chans (a, i, port)) :
    ∃ as n', exec step n as = some n' ∧ Histories n n' h := by
  induction is generalizing n h with
  | nil =>
    have heq : h = fun _ => [] := funext fun i => hnot i not_mem_nil
    rw [heq]
    exact ⟨[], n, rfl, .refl n⟩
  | cons i is ih =>
    obtain ⟨hi, hnodup⟩ := nodup_cons.1 hnodup
    obtain ⟨as, n₁, hexec, hh⟩ := follow (hp i mem_cons_self) (hin i)
    have hother : ∀ j, j ≠ i → n₁.procs j = n.procs j := fun j hj => hh.procs (by rw [update_of_ne hj]; exact .refl _)
    have hne : ∀ j ∈ is, j ≠ i := fun j hj heq => hi (heq ▸ hj)
    obtain ⟨bs, n', hexec', hh'⟩ := ih (n := n₁) (h := update h i []) hnodup (fun j hj => by
        rw [hother j (hne j hj), update_of_ne (hne j hj)]
        exact hp j (mem_cons_of_mem _ hj))
      (fun j hj => by
        by_cases hji : j = i
        · rw [hji, update_self]
        · rw [update_of_ne hji]
          exact hnot j fun hmem => (mem_cons.1 hmem).elim hji hj)
      (fun j a port => by
        by_cases hji : j = i
        · rw [hji, update_self]
          exact nil_prefix
        · have hchans := hh.chans a j port
          rw [update_of_ne (f := fun _ => []) hji] at hchans
          rw [update_of_ne hji]
          refine (hin j a port).trans ?_
          rw [show n₁.chans (a, j, port) = _ from hchans.symm]
          exact prefix_append _ _)
    refine ⟨as ++ bs, n', ?_, ?_⟩
    · rw [exec_append, hexec]
      exact hexec'
    · have htrans := hh.trans hh'
      have heq : (fun j => update (fun _ => []) i (h i) j ++ update h i [] j) = h := by
        funext j
        by_cases hj : j = i
        · rw [hj, update_self, update_self, append_nil]
        · rw [update_of_ne hj, update_of_ne hj]
          rfl
      rwa [heq] at htrans

/-! ## Exchanges with the neighbours -/

def quiet (procs : ι → Proc ι π μ ν ε α) (notes : ι → List ν) : Network ι π μ ν ε α := ⟨procs, fun _ => [], notes⟩

variable {procs : ι → Proc ι π μ ν ε α}

section Neighbours
variable {is : List ι} {nxt prv : ι → ι} {port : π}

@[simp] theorem sentTo_sends (dst dst' : ι) (port port' : π) (l : List μ) :
    sentTo dst' port' (l.map (.sent dst port) : List (Event ι π μ ν)) = if dst = dst' ∧ port = port' then l else [] := by
  rw [sentTo, filterMap_map]
  split_ifs with h
  · exact (filterMap_congr fun m _ => if_pos h).trans filterMap_some
  · exact filterMap_eq_nil_iff.2 fun m _ => if_neg h

@[simp] theorem gotFrom_gots (src src' : ι) (port port' : π) (l : List μ) :
    gotFrom src' port' (l.map (.got src port) : List (Event ι π μ ν)) = if src = src' ∧ port = port' then l else [] := by
  rw [gotFrom, filterMap_map]
  split_ifs with h
  · exact (filterMap_congr fun m _ => if_pos h).trans filterMap_some
  · exact filterMap_eq_nil_iff.2 fun m _ => if_neg h

@[simp] theorem gotFrom_sends (dst src : ι) (port port' : π) (l : List μ) :
    gotFrom src port' (l.map (.sent dst port) : List (Event ι π μ ν)) = [] := by
  rw [gotFrom, filterMap_map]
  exact filterMap_eq_nil_iff.2 fun m _ => rfl

@[simp] theorem sentTo_gots (src dst : ι) (port port' : π) (l : List μ) :
    sentTo dst port' (l.map (.got src port) : List (Event ι π μ ν)) = [] := by
  rw [sentTo, filterMap_map]
  exact filterMap_eq_nil_iff.2 fun m _ => rfl

omit [DecidableEq ι] [DecidableEq π] in
@[simp] theorem notesOf_sends (dst : ι) (port : π) (l : List μ) : notesOf (l.map (.sent dst port) : List (Event ι π μ ν)) = [] := by
  rw [notesOf, filterMap_map]
  exact filterMap_eq_nil_iff.2 fun m _ => rfl

omit [DecidableEq ι] [DecidableEq π] in
@[simp] theorem notesOf_gots (src : ι) (port : π) (l : List μ) : notesOf (l.map (.got src port) : List (Event ι π μ ν)) = [] := by
  rw [notesOf, filterMap_map]
  exact filterMap_eq_nil_iff.2 fun m _ => rfl

/-- **An exchange with the neighbours**: each process of a ring sends to the next one, and then receives what was sent to it. -/
theorem exchange (hnodup : is.Nodup) (hnext : ∀ i ∈ is, nxt i ∈ is ∧ prv (nxt i) = i) (hprev : ∀ i ∈ is, prv i ∈ is ∧ nxt (prv i) = i)
    {mid q : ι → Proc ι π μ ν ε α} (notes : ι → List ν) (out : ι → List μ)
    (hsend : ∀ i ∈ is, Path (procs i) ((out i).map (.sent (nxt i) port)) (mid i))
    (hrecv : ∀ i ∈ is, Path (mid i) ((out (prv i)).map (.got (prv i) port)) (q i)) (hq : ∀ i, i ∉ is → q i = procs i) :
    ∃ as, exec step (quiet procs notes) as = some (quiet q notes) := by
  let sends : ι → List (Event ι π μ ν) := fun i => if i ∈ is then (out i).map (.sent (nxt i) port) else []
  let gots : ι → List (Event ι π μ ν) := fun i => if i ∈ is then (out (prv i)).map (.got (prv i) port) else []
  have hsends : ∀ i j port', sentTo j port' (sends i) = if i ∈ is ∧ nxt i = j ∧ port = port' then out i else [] := by
    intro i j port'
    by_cases hi : i ∈ is
    · simp only [sends, if_pos hi, sentTo_sends, hi, true_and]
    · simp only [sends, if_neg hi, hi, false_and, if_false]
      rfl
  have hgots : ∀ i j port', gotFrom i port' (gots j) = if j ∈ is ∧ prv j = i ∧ port = port' then out (prv j) else [] := by
    intro i j port'
    by_cases hj : j ∈ is
    · simp only [gots, if_pos hj, gotFrom_gots, hj, true_and]
    · simp only [gots, if_neg hj, hj, false_and, if_false]
      rfl
  have hnone : ∀ i j port', gotFrom i port' (sends j) = [] := fun i j port' => by
    by_cases hj : j ∈ is
    · simp only [sends, if_pos hj, gotFrom_sends]
    · simp only [sends, if_neg hj]
      rfl
  have hnone' : ∀ i j port', sentTo j port' (gots i) = [] := fun i j port' => by
    by_cases hi : i ∈ is
    · simp only [gots, if_pos hi, sentTo_gots]
    · simp only [gots, if_neg hi]
      rfl
  -- what is sent from `i` to `j` is what `j` gets from `i`
  have hpairs : ∀ i j port', sentTo j port' (sends i) = gotFrom i port' (gots j) := fun i j port' => by
    rw [hsends, hgots]
    by_cases hi : i ∈ is ∧ nxt i = j ∧ port = port'
    · obtain ⟨hi, rfl, hport⟩ := hi
      rw [if_pos ⟨hi, rfl, hport⟩, if_pos ⟨(hnext i hi).1, (hnext i hi).2, hport⟩, (hnext i hi).2]
    · rw [if_neg hi, if_neg]
      rintro ⟨hj, rfl, hport⟩
      exact hi ⟨(hprev j hj).1, (hprev j hj).2, hport⟩
  obtain ⟨as, n₁, hexec, hh⟩ := reach (n := quiet procs notes) (h := sends) is hnodup mid (fun i hi => by
      simp only [sends, if_pos hi]
      exact hsend i hi)
    (fun i hi => if_neg hi)
    (fun i a port' => by rw [hnone]; exact nil_prefix)
  have hmid : ∀ i ∈ is, n₁.procs i = mid i := fun i hi => hh.procs (by
    simp only [sends, if_pos hi]
    exact hsend i hi)
  obtain ⟨bs, n₂, hexec', hh'⟩ := reach (n := n₁) (h := gots) is hnodup q (fun i hi => by
      rw [hmid i hi]
      simpa only [gots, if_pos hi] using hrecv i hi)
    (fun i hi => if_neg hi)
    (fun i a port' => by
      have hchans := hh.chans a i port'
      rw [hnone, hpairs] at hchans
      exact ⟨[], (append_nil _).trans hchans⟩)
  refine ⟨as ++ bs, ?_⟩
  rw [exec_append, hexec]
  refine hexec'.trans (congrArg some (Histories.unique (hh.trans hh') ⟨fun i => ?_, fun i => ?_, fun i j port' => ?_⟩))
  · by_cases hi : i ∈ is
    · simp only [sends, gots, if_pos hi]
      exact (hsend i hi).trans (hrecv i hi)
    · simp only [sends, gots, if_neg hi]
      rw [show (quiet q notes).procs i = (quiet procs notes).procs i from hq i hi]
      exact .refl _
  · by_cases hi : i ∈ is
    · simp only [sends, gots, if_pos hi, notesOf_append, notesOf_sends, notesOf_gots, append_nil]
      rfl
    · simp only [sends, gots, if_neg hi]
      exact (append_nil _).symm
  · rw [sentTo_append, gotFrom_append, hnone, hnone', hpairs, append_nil, nil_append]
    exact (append_nil _).symm

end Neighbours

/-! ## Loops -/

/-- **Loops whose rounds are passed together**: `state k` is what the processes have after `k` rounds. -/
theorem loop {σ : Type} (p : ι → Prop) [DecidablePred p] {m : Nat} (body : ι → σ → Nat → Proc ι π μ ν ε σ) (state : Nat → ι → σ) {notes : ι → List ν}
    (hround : ∀ k < m, ∀ next : ι → σ → Proc ι π μ ν ε α, ∃ as,
      exec step (quiet (fun i => if p i then body i (state k i) k >>= next i else procs i) notes) as =
        some (quiet (fun i => if p i then next i (state (k + 1) i) else procs i) notes))
    (next : ι → σ → Proc ι π μ ν ε α) (hprocs : ∀ i, p i → procs i = (range m).foldlM (body i) (state 0 i) >>= next i) :
    ∃ as, exec step (quiet procs notes) as = some (quiet (fun i => if p i then next i (state m i) else procs i) notes) := by
  let after : Nat → ι → Proc ι π μ ν ε α := fun k i =>
    if p i then (range' k (m - k)).foldlM (body i) (state k i) >>= next i else procs i
  have hafter : ∀ k ≤ m, ∃ as, exec step (quiet (after 0) notes) as = some (quiet (after k) notes) := fun k hk => by
    induction k with
    | zero => exact ⟨[], rfl⟩
    | succ k ih =>
      have hrest : m - k = m - (k + 1) + 1 := by omega
      have hnext : after k = fun i => if p i then
          body i (state k i) k >>= fun s => (range' (k + 1) (m - (k + 1))).foldlM (body i) s >>= next i else procs i := by
        funext i
        simp only [after, hrest, range'_succ, foldlM_cons, bind_assoc]
      obtain ⟨as, hexec⟩ := ih (by omega)
      obtain ⟨bs, hexec'⟩ := hround k hk fun i s => (range' (k + 1) (m - (k + 1))).foldlM (body i) s >>= next i
      refine ⟨as ++ bs, ?_⟩
      rw [exec_append, hexec, hnext]
      exact hexec'
  have hstart : after 0 = procs := by
    funext i
    simp only [after, Nat.sub_zero, ← range_eq_range']
    split_ifs with hi
    · exact (hprocs i hi).symm
    · rfl
  have hend : after m = fun i => if p i then next i (state m i) else procs i := by
    funext i
    simp only [after, Nat.sub_self]
    rfl
  have hrun := hafter m (Nat.le_refl m)
  rwa [hstart, hend] at hrun

/-! ## Ends -/

/-- Every run ends, and where it has ended `Q` holds. -/
structure Settles (n : Network ι π μ ν ε α) (Q : Network ι π μ ν ε α → Prop) : Prop where
  bounded : ∃ bound, ∀ as n', exec step n as = some n' → as.length ≤ bound
  ends : ∀ as n', exec step n as = some n' → Stopped step n' → Q n'

variable {Q : Network ι π μ ν ε α → Prop}

/-- One run that has ended decides about all of them. -/
theorem Settles.of_run {as : List ι} (hexec : exec step n as = some n') (hstop : Stopped step n')
    (hQ : Q n') : n.Settles Q where
  bounded := by
    refine ⟨as.length, fun bs n'' hrun => ?_⟩
    obtain ⟨cs, -, hlength⟩ := commutes.completes hexec hstop hrun
    omega
  ends bs n'' hrun hstop' := by
    rw [commutes.unique hexec hstop hrun hstop']
    exact hQ

theorem Settles.exists_run (h : n.Settles Q) : ∃ as n', exec step n as = some n' ∧ Stopped step n' ∧ Q n' := by
  obtain ⟨bound, hbound⟩ := h.bounded
  obtain ⟨as, n', hexec, hstop⟩ := exists_stopped hbound
  exact ⟨as, n', hexec, hstop, h.ends as n' hexec hstop⟩

end Network

end FlagCX.Lib
