import FlagCX.UniRunner.Exec

/-!
# Executing the DAGs rank by rank

The messages from a rank to another are fixed beforehand (`M`), and every rank is followed on its own: what it has
performed, its memory, and how many messages it sent to and received from each peer.

* `RankState.perform` : an operation of a node as the rank sees it.
* `Splits`   : a world whose ranks have properties that they keep and whose channels hold the messages that are under way.
-/

namespace FlagCX.UniRunner
open List Function Option

open Dag

/-- What one rank has performed, its memory, and the messages it sent to and received from each peer. -/
structure RankState (α : Type) where
  fired : Nat → Nat → Bool
  mem : Nat → α
  sent : Nat → Nat
  recvd : Nat → Nat

section

variable {α : Type} (op : α → α → α) (inbox outbox : Nat → Nat → List α) (x : RankState α)

def RankState.mark (u k : Nat) : RankState α :=
  { x with fired := fun u' k' => if u' = u ∧ k' = k then true else x.fired u' k' }

/-- Operation `k` of a node, with the messages received taken from `inbox`. -/
def RankState.perform : NodeData → Nat → Option (RankState α)
  | .p2p ops, k =>
    match ops[k]? with
    | none => none
    | some ⟨.send, peer, _, _⟩ => some { x with sent := update x.sent peer (x.sent peer + 1) }
    | some ⟨.recv, peer, addr, count⟩ =>
      some { x with
        mem := writeAt x.mem addr count fun j => (inbox peer (x.recvd peer)).getD j (x.mem (addr + j))
        recvd := update x.recvd peer (x.recvd peer + 1) }
  | .red d, 0 =>
    some { x with
      mem := writeAt x.mem d.output (triggerCount d.count) fun j => op (x.mem (d.input1 + j)) (x.mem (d.input2 + j)) }
  | .cpy d, 0 => some { x with mem := writeAt x.mem d.dst d.count fun j => x.mem (d.src + j) }
  | _, _ + 1 => none

/-- What the operation sends is the next message of `outbox`. -/
def RankState.Carries : NodeData → Nat → Prop
  | .p2p ops, k => ∀ peer addr count, ops[k]? = some ⟨.send, peer, addr, count⟩ →
      readAt x.mem addr count = outbox peer (x.sent peer)
  | _, _ => True

end

section

variable (dag : List DagNode) (f : Nat → Nat → Bool)

/-- All operations of node `u` have been performed. -/
def LocalDone (u : Nat) : Prop := ∃ node, dag[u]? = some node ∧ ∀ k < node.nodeData.numOps, f u k = true

/-- All parents of node `u` are done. -/
def LocalReady (u : Nat) : Prop := ∀ v, Edge (dag.map (·.children)) v u → LocalDone dag f v

/-- The parents of what has been performed are done. -/
def Closed : Prop := ∀ u k, f u k = true → LocalReady dag f u

variable {dag f}

theorem LocalDone.mono {f' : Nat → Nat → Bool} {u : Nat} (h : LocalDone dag f u) (hf : ∀ u k, f u k = true → f' u k = true) :
    LocalDone dag f' u := by
  obtain ⟨node, hnode, hall⟩ := h
  exact ⟨node, hnode, fun k hk => hf u k (hall k hk)⟩

theorem Closed.mark {u k : Nat} (h : Closed dag f) (hready : LocalReady dag f u) :
    Closed dag fun u' k' => if u' = u ∧ k' = k then true else f u' k' := by
  have hf : ∀ u' k', f u' k' = true → (if u' = u ∧ k' = k then true else f u' k') = true := by
    intro u' k' hfired
    rw [hfired, ite_self]
  intro u' k' hfired v hv
  dsimp only at hfired
  split_ifs at hfired with he
  · rw [he.1] at hv
    exact (hready v hv).mono hf
  · exact (h u' k' hfired v hv).mono hf

theorem closed_start (dag : List DagNode) : Closed dag fun _ _ => false := nofun

end

/-- `L` is kept by every operation of a rank, and what the rank sends is taken from `outbox`. -/
def Keeps {α : Type} (dag : List DagNode) (op : α → α → α) (inbox outbox : Nat → Nat → List α) (L : RankState α → Prop) :
    Prop :=
  ∀ x, L x → Closed dag x.fired → ∀ u k node, dag[u]? = some node → LocalReady dag x.fired u → x.fired u k = false →
    x.Carries outbox node.nodeData k ∧ ∀ x', x.perform op inbox node.nodeData k = some x' → L (x'.mark u k)

section

variable {α : Type} (n : Nat) (dag : Nat → List DagNode) (op : α → α → α) (M : Nat → Nat → Nat → List α)
  (L : Nat → RankState α → Prop)

def World.rank (w : World α) (sent recvd : Nat → Nat → Nat) (r : Nat) : RankState α := ⟨w.fired r, w.mem r, sent r, recvd r⟩

/-- Every rank has its property, and the channels hold the messages between the counters. -/
structure Splits (w : World α) (sent recvd : Nat → Nat → Nat) : Prop where
  own : ∀ r < n, L r (w.rank sent recvd r)
  closed : ∀ r < n, Closed (dag r) (w.fired r)
  recvd_le : ∀ a b, recvd b a ≤ sent a b
  chan_eq : ∀ a b, w.chan a b = (range' (recvd b a) (sent a b - recvd b a)).map (M a b)

variable {n dag op M L} {w w' : World α} {sent recvd : Nat → Nat → Nat}

theorem Splits.local_step (h : Splits n dag M L w sent recvd) {r u k : Nat} (hready : LocalReady (dag r) (w.fired r) u)
    {w₁ : World α} {sent' recvd' : Nat → Nat → Nat} (hfired : w₁.fired = w.fired)
    (hmem : ∀ r', r' ≠ r → w₁.mem r' = w.mem r') (hsent : ∀ r', r' ≠ r → sent' r' = sent r')
    (hrecvd : ∀ r', r' ≠ r → recvd' r' = recvd r') (hown : L r ((w₁.rank sent' recvd' r).mark u k))
    (hle : ∀ a b, recvd' b a ≤ sent' a b)
    (hchan : ∀ a b, w₁.chan a b = (range' (recvd' b a) (sent' a b - recvd' b a)).map (M a b)) :
    Splits n dag M L (w₁.mark r u k) sent' recvd' := by
  have hself : (w₁.mark r u k).rank sent' recvd' r = (w₁.rank sent' recvd' r).mark u k := by
    unfold World.rank RankState.mark
    congr 1
    funext u' k'
    rw [World.mark_fired]
    simp
  have hother : ∀ r', r' ≠ r → (w₁.mark r u k).rank sent' recvd' r' = w.rank sent recvd r' := by
    intro r' hr'
    unfold World.rank
    rw [hsent r' hr', hrecvd r' hr', World.mark_mem, hmem r' hr']
    congr 1
    funext u' k'
    rw [World.mark_fired, if_neg fun he => hr' he.1, hfired]
  refine ⟨fun r' hr' => ?_, fun r' hr' => ?_, hle, hchan⟩
  · by_cases he : r' = r
    · rw [he, hself]
      exact hown
    · rw [hother r' he]
      exact h.own r' hr'
  · by_cases he : r' = r
    · have hc := (h.closed r' hr').mark (k := k) (he ▸ hready : LocalReady (dag r') (w.fired r') u)
      have hf : (w₁.mark r u k).fired r' = fun u' k' => if u' = u ∧ k' = k then true else w.fired r' u' k' := by
        funext u' k'
        rw [World.mark_fired, hfired, he]
        simp
      rw [hf]
      exact hc
    · have hf : (w₁.mark r u k).fired r' = w.fired r' := congrArg RankState.fired (hother r' he)
      rw [hf]
      exact h.closed r' hr'

theorem Splits.step (hkeeps : ∀ r < n, Keeps (dag r) op (fun p => M p r) (M r) (L r)) (h : Splits n dag M L w sent recvd)
    (hstep : Step n dag op w w') : ∃ sent recvd, Splits n dag M L w' sent recvd := by
  obtain ⟨r, u, k, node, w₁, hr, hnode, hready, hfresh, hperform⟩ := hstep
  have hready' : LocalReady (dag r) (w.fired r) u := hready
  obtain ⟨hcarries, hkept⟩ := hkeeps r hr _ (h.own r hr) (h.closed r hr) u k node hnode hready' hfresh
  generalize node.nodeData = d at hcarries hkept hperform
  -- an operation that only writes to memory
  have hwrite : ∀ m, (w.rank sent recvd r).perform op (fun p => M p r) d k = some { w.rank sent recvd r with mem := m } →
      ∃ sent recvd, Splits n dag M L ((w.setMem r m).mark r u k) sent recvd := by
    intro m hm
    refine ⟨sent, recvd, h.local_step hready' rfl (fun r' hr' => World.setMem_of_ne w m hr') (fun _ _ => rfl)
      (fun _ _ => rfl) ?_ h.recvd_le h.chan_eq⟩
    have hL := hkept _ hm
    unfold World.rank
    rw [World.setMem_self]
    exact hL
  cases d with
  | red d | cpy d =>
    cases k with
    | zero =>
      cases hperform
      exact hwrite _ rfl
    | succ k => cases hperform
  | p2p ops =>
    unfold perform at hperform
    unfold RankState.perform at hkept
    dsimp only at hperform hkept
    cases hop : ops[k]? with
    | none =>
      rw [hop] at hperform
      cases hperform
    | some o =>
      rw [hop] at hperform hkept
      obtain ⟨type, peer, addr, count⟩ := o
      cases type with
      | send =>
        cases hperform
        have hmsg : readAt (w.mem r) addr count = M r peer (sent r peer) := hcarries peer addr count hop
        refine ⟨update sent r (update (sent r) peer (sent r peer + 1)), recvd,
          h.local_step hready' rfl (fun _ _ => rfl) (fun r' hr' => update_of_ne hr' _ _) (fun _ _ => rfl) ?_ ?_ ?_⟩
        · have hL := hkept _ rfl
          unfold World.rank
          rw [update_self]
          exact hL
        · intro a b
          have hle := h.recvd_le a b
          rw [update_apply]
          split_ifs with ha
          · rw [update_apply]
            split_ifs with hb
            · rw [ha, hb] at hle
              rw [ha, hb]
              omega
            · rw [← ha]
              exact hle
          · exact hle
        · intro a b
          rw [World.setChan_chan]
          by_cases hab : a = r ∧ b = peer
          · obtain ⟨rfl, rfl⟩ := hab
            have hle := h.recvd_le a b
            rw [if_pos ⟨rfl, rfl⟩, update_self, update_self, h.chan_eq a b, hmsg,
              show sent a b + 1 - recvd b a = (sent a b - recvd b a) + 1 by omega, range'_concat, map_append,
              map_singleton]
            congr 3
            omega
          · rw [if_neg hab, h.chan_eq a b]
            congr 3
            rw [update_apply]
            split_ifs with ha
            · rw [update_of_ne fun hb => hab ⟨ha, hb⟩, ha]
            · rfl
      | recv =>
        cases hchan : w.chan peer r with
        | nil =>
          simp only [hchan] at hperform
          cases hperform
        | cons msg rest =>
          simp only [hchan] at hperform
          cases hperform
          have hc := h.chan_eq peer r
          rw [hchan] at hc
          have hlt : recvd r peer < sent peer r := by
            by_contra hge
            rw [show sent peer r - recvd r peer = 0 by omega] at hc
            cases hc
          obtain ⟨m, hm⟩ : ∃ m, sent peer r - recvd r peer = m + 1 := ⟨sent peer r - recvd r peer - 1, by omega⟩
          rw [hm, range'_succ, map_cons, cons.injEq] at hc
          obtain ⟨rfl, hrest⟩ := hc
          refine ⟨sent, update recvd r (update (recvd r) peer (recvd r peer + 1)),
            h.local_step hready' rfl (fun r' hr' => World.setMem_of_ne _ _ hr') (fun _ _ => rfl)
            (fun r' hr' => update_of_ne hr' _ _) ?_ ?_ ?_⟩
          · have hL := hkept _ rfl
            unfold World.rank
            rw [update_self, World.setMem_self]
            exact hL
          · intro a b
            have hle := h.recvd_le a b
            rw [update_apply]
            split_ifs with hb
            · rw [update_apply]
              split_ifs with ha
              · rw [ha, hb]
                exact hlt
              · rw [← hb]
                exact hle
            · exact hle
          · intro a b
            rw [World.setMem_chan, World.setChan_chan]
            by_cases hab : a = peer ∧ b = r
            · obtain ⟨rfl, rfl⟩ := hab
              rw [if_pos ⟨rfl, rfl⟩, update_self, update_self, hrest,
                show sent a b - (recvd b a + 1) = m by omega]
            · rw [if_neg hab, h.chan_eq a b]
              have hsame : update recvd r (update (recvd r) peer (recvd r peer + 1)) b a = recvd b a := by
                rw [update_apply]
                split_ifs with hb
                · rw [update_of_ne fun ha => hab ⟨ha, hb⟩, hb]
                · rfl
              rw [hsame]

variable {m : Nat → Nat → α}

/-- **Every reachable world splits into its ranks.** -/
theorem splits_of_run (hkeeps : ∀ r < n, Keeps (dag r) op (fun p => M p r) (M r) (L r))
    (hstart : ∀ r < n, L r ⟨fun _ _ => false, m r, fun _ => 0, fun _ => 0⟩) (hrun : Run n dag op (World.start m) w) :
    ∃ sent recvd, Splits n dag M L w sent recvd := by
  induction hrun with
  | refl => exact ⟨fun _ _ => 0, fun _ _ => 0, hstart, fun r _ => closed_start (dag r), fun _ _ => le_rfl, fun _ _ => rfl⟩
  | tail _ hstep ih =>
    obtain ⟨sent, recvd, h⟩ := ih
    exact h.step hkeeps hstep

/-! ## Deadlock freedom -/

def IsOp (dag : List DagNode) (u k : Nat) : Prop := ∃ node, dag[u]? = some node ∧ k < node.nodeData.numOps

/-- The operations can be timed: parents come earlier, and so do enough sends of the peer for the next receive. -/
structure Timed (n : Nat) (dag : Nat → List DagNode) (L : Nat → RankState α → Prop) (time : Nat → Nat → Nat → Nat) : Prop
    where
  edge : ∀ r < n, ∀ v u, Edge ((dag r).map (·.children)) v u → ∀ k' k, IsOp (dag r) v k' → IsOp (dag r) u k →
    time r v k' < time r u k
  recv : ∀ r < n, ∀ x, L r x → Closed (dag r) x.fired → ∀ u k node ops peer addr count, (dag r)[u]? = some node →
    node.nodeData = .p2p ops → ops[k]? = some ⟨.recv, peer, addr, count⟩ → LocalReady (dag r) x.fired u →
    x.fired u k = false → peer < n ∧ ∀ y, L peer y →
      (∀ u' k', IsOp (dag peer) u' k' → time peer u' k' < time r u k → y.fired u' k' = true) → x.recvd peer < y.sent r

variable {time : Nat → Nat → Nat → Nat}

theorem Splits.complete_of_stuck (ht : Timed n dag L time)
    (h : Splits n dag M L w sent recvd) (hstuck : ∀ w', ¬ Step n dag op w w') : Complete n dag w := by
  intro r hr u hu
  refine ⟨_, getElem?_eq_getElem hu, ?_⟩
  by_contra hopen
  -- among the operations not performed, one with the least time
  have hsome : ∃ t, ∃ r < n, ∃ u k, IsOp (dag r) u k ∧ w.fired r u k = false ∧ time r u k = t := by
    obtain ⟨k, hk⟩ := not_forall.1 hopen
    obtain ⟨hlt, hfired⟩ := Classical.not_imp.1 hk
    exact ⟨_, r, hr, u, k, ⟨_, getElem?_eq_getElem hu, hlt⟩, by simpa using hfired, rfl⟩
  classical
  obtain ⟨r, hr, u, k, hop, hfresh, htime⟩ := Nat.find_spec hsome
  have hearlier : ∀ r' < n, ∀ u' k', IsOp (dag r') u' k' → time r' u' k' < time r u k → w.fired r' u' k' = true := by
    intro r' hr' u' k' hop' hlt
    by_contra hno
    exact Nat.find_min hsome (htime ▸ hlt) ⟨r', hr', u', k', hop', by simpa using hno, rfl⟩
  have hready : LocalReady (dag r) (w.fired r) u := by
    intro v hv
    obtain ⟨cs, hcs, -⟩ := id hv
    rw [getElem?_map] at hcs
    obtain ⟨node, hnode, -⟩ := map_eq_some_iff.1 hcs
    refine ⟨node, hnode, fun k' hk' => ?_⟩
    exact hearlier r hr v k' ⟨node, hnode, hk'⟩ (ht.edge r hr v u hv k' k ⟨node, hnode, hk'⟩ hop)
  obtain ⟨node, hnode, hk⟩ := hop
  have hgo : ∀ w₁, perform op w r node.nodeData k = some w₁ → False := fun w₁ hw₁ =>
    hstuck _ (.exec r u k node w₁ hr hnode hready hfresh hw₁)
  cases hd : node.nodeData with
  | red d | cpy d =>
    rw [hd] at hgo hk
    obtain rfl : k = 0 := Nat.lt_one_iff.1 hk
    exact hgo _ rfl
  | p2p ops =>
    rw [hd] at hgo hk
    have hget : ops[k]? = some ops[k] := getElem?_eq_getElem hk
    cases ho : ops[k] with
    | mk type peer addr count =>
      rw [ho] at hget
      unfold perform at hgo
      simp only [hget] at hgo
      cases type with
      | send => exact hgo _ rfl
      | recv =>
        obtain ⟨hpeer, hmore⟩ := ht.recv r hr _ (h.own r hr) (h.closed r hr) u k node ops peer addr count hnode hd hget
          hready hfresh
        have hlt := hmore _ (h.own peer hpeer) (hearlier peer hpeer)
        have hchan := h.chan_eq peer r
        obtain ⟨m, hm⟩ : ∃ m, sent peer r - recvd r peer = m + 1 :=
          ⟨sent peer r - recvd r peer - 1, by have : recvd r peer < sent peer r := hlt; omega⟩
        rw [hm, range'_succ, map_cons] at hchan
        dsimp only at hgo
        rw [hchan] at hgo
        exact hgo _ rfl

/-- **From every reachable world the ranks can finish.** -/
theorem exists_complete_of_times (hkeeps : ∀ r < n, Keeps (dag r) op (fun p => M p r) (M r) (L r)) (ht : Timed n dag L time)
    (hstart : ∀ r < n, L r ⟨fun _ _ => false, m r, fun _ => 0, fun _ => 0⟩) (hrun : Run n dag op (World.start m) w) :
    ∃ w', Run n dag op w w' ∧ Complete n dag w' := by
  induction hk : (unfired n dag w).card using Nat.strong_induction_on generalizing w with
  | _ k ih =>
    by_cases hstuck : ∀ w', ¬ Step n dag op w w'
    · obtain ⟨sent, recvd, h⟩ := splits_of_run hkeeps hstart hrun
      exact ⟨w, .refl, h.complete_of_stuck ht hstuck⟩
    · obtain ⟨w₁, hstep⟩ := not_forall_not.1 hstuck
      obtain ⟨w₂, hgo, hcomplete⟩ := ih _ (hk ▸ unfired_lt hstep) (hrun.tail hstep) rfl
      exact ⟨w₂, .head hstep hgo, hcomplete⟩

end

end FlagCX.UniRunner
