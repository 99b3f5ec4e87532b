import FlagCX.Lib.Guarded
import FlagCX.P2pShm.Moves

/-!
# The slot protocol is safe

* `tellPeer_spec`, `retire_spec`, `Inv.opened`, `Inv.next` : the steps that change the phase of a side.
* `progress_spec`, `Inv.step` : a call of a progress function, and what `progressOps` does after it.
* `slots_safe` : every run in which no slot is taken over under the same hash too early.
-/

namespace FlagCX.P2pShm
open Lib Function List Option

section Moves
-- a goal about a call would be evaluated down to the comparison of two numbers
attribute [local irreducible] Chunking.chunkSteps
variable {l : Link} {C : Conflict l} {w : World} {r : Role} {s : Side} {o : SyncSlot} {g : RegInfo} {es : List Event} {k : Nat}

/-! ### The end of an operation -/

def World.toldPeer (w : World) (l : Link) (r : Role) : World where
  slots := update (update w.slots (l.idx r (w.side r).cur) { w.slotPtr l r with done := true })
    (l.idx r.peer (w.side r).cur) { w.peerSlotPtr l r with peerDone := true }
  regInfos := w.regInfos
  side := w.side
  trace := w.trace ++ [.finished r (w.side r).cur]

theorem World.toldPeer_slotPtr_self : (w.toldPeer l r).slotPtr l r = { w.slotPtr l r with done := true } := by
  change update _ _ _ (l.idx r (w.side r).cur) = _
  rw [update_of_ne (l.idx_ne r _ _), update_self]

theorem World.toldPeer_slotPtr_peer (hmet : Met l w r) :
    (w.toldPeer l r).slotPtr l r.peer = { w.slotPtr l r.peer with peerDone := true } := by
  rw [← hmet.peerSlotPtr, slotPtr]
  change (w.toldPeer l r).slots (l.idx r.peer (w.side r.peer).cur) = _
  rw [hmet.1]
  exact update_self _ _ _

theorem World.toldPeer_opHash (i : Nat) : ((w.toldPeer l r).slots i).opHash = (w.slots i).opHash := by
  unfold toldPeer
  by_cases hpeer : i = l.idx r.peer (w.side r).cur
  · simp [hpeer, peerSlotPtr]
  · by_cases hown : i = l.idx r (w.side r).cur
    · simp [hown, slotPtr, l.idx_ne]
    · simp [hpeer, hown]

theorem SyncSlot.advance_eq {o o' : SyncSlot} {n chunks : Nat} (h : o.advance n chunks r = o)
    (hhead : o'.sendHead = o.sendHead) (htail : o'.recvTail = o.recvTail) : o'.advance n chunks r = o' := by
  cases r with
  | send =>
    have hn : n = o.sendHead := congrArg SyncSlot.sendHead h
    rw [advance, hn, ← hhead]
  | recv =>
    have hn : n + chunks = o.recvTail := congrArg SyncSlot.recvTail h
    rw [advance, hn, ← htail]

theorem Head.flags {trace trace' : List Event} {o' : SyncSlot} (h : Head l r s o g trace) (hsub : trace ⊆ trace')
    (hhead : o'.sendHead = o.sendHead) (htail : o'.recvTail = o.recvTail)
    (hdone : o'.done = o.done ∨ s.p2pPlan ≠ .pending ∧ s.transmitted = (l.transfer s.cur).steps) :
    Head l r s o' g trace' where
  offered := h.offered
  pending hpending := by
    rcases hdone with hsame | ⟨hne, -⟩
    · rw [hsame]
      exact h.pending hpending
    · exact absurd hpending hne
  planned := h.planned
  finished hdone' := by
    rcases hdone with hsame | ⟨-, hall⟩
    · exact h.finished (hsame.symm.trans hdone')
    · exact hall
  copyDone := (h.mono hsub).copyDone
  direct := (h.mono hsub).direct
  chunked hc := { (h.mono hsub).chunked hc with slot := SyncSlot.advance_eq (h.chunked hc).slot hhead htail }

theorem Planned.toldPeer (h : Planned C r k w) (hall : (w.side r).transmitted = (l.transfer k).steps) (hmet : Met l w r) :
    Turn C r k (w.toldPeer l r) ∧ ((w.toldPeer l r).slotPtr l r).done = true ∧
      ((w.toldPeer l r).side r).p2pPlan ≠ .pending := by
  have hcur : (w.side r).cur = k := h.cur
  have hlive : ∀ x, Live l (w.toldPeer l r) x ↔ Live l w x := by
    intro x
    unfold Live
    rw [World.slotPtr, World.toldPeer_opHash]
    rfl
  have hfin : ∀ x j, Fin l w x j → Fin l (w.toldPeer l r) x j := by
    rintro x j (hover | ⟨hj, hx, hdone⟩)
    · exact .inl hover
    · refine .inr ⟨hj, (hlive x).2 hx, ?_⟩
      rcases Role.eq_or_eq_peer r x with rfl | rfl
      · rw [World.toldPeer_slotPtr_self]
      · rw [World.toldPeer_slotPtr_peer hmet]
        exact hdone
  have hfin' : ∀ x j, Fin l (w.toldPeer l r) x j → Fin l w x j ∨ x = r ∧ j = (w.side r).cur := by
    rintro x j (hover | ⟨hj, hx, hdone⟩)
    · exact .inl (.inl hover)
    · rcases Role.eq_or_eq_peer r x with rfl | rfl
      · exact .inr ⟨rfl, hj⟩
      · refine .inl (.inr ⟨hj, (hlive _).1 hx, ?_⟩)
        rwa [World.toldPeer_slotPtr_peer hmet] at hdone
  have hself : Fin l (w.toldPeer l r) r (w.side r).cur := by
    refine .inr ⟨rfl, (hlive r).2 h.live, ?_⟩
    rw [World.toldPeer_slotPtr_self]
  have hhead : Head l r (w.side r) ((w.toldPeer l r).slotPtr l r) (w.regInfoPtr l r) (w.toldPeer l r).trace := by
    rw [World.toldPeer_slotPtr_self]
    exact h.head.flags (subset_append_left _ _) rfl rfl (.inr ⟨h.plan_ne, by rw [hcur, hall]⟩)
  refine ⟨⟨?_, (hlive r).2 h.live, h.awake, hcur⟩, ?_, h.plan_ne⟩
  · exact
      { idle := fun x hx hdone => h.inv.idle x (fun hx' => hx ((hlive x).2 hx')) hdone
        free := fun x j => by
          rw [World.toldPeer_opHash, hlive]
          exact h.inv.free x j
        head := fun x hx => by
          rcases Role.eq_or_eq_peer r x with rfl | rfl
          · exact hhead
          · rw [World.toldPeer_slotPtr_peer hmet]
            exact (h.inv.head _ ((hlive _).1 hx)).flags (subset_append_left _ _) rfl rfl (.inl rfl)
        along := fun x j hj => hfin _ _ (h.inv.along x j hj)
        told := fun x hx => by
          rcases Role.eq_or_eq_peer r x with rfl | rfl
          · rw [World.toldPeer_slotPtr_self]
            refine (h.inv.told x h.live).trans ⟨hfin _ _, fun hj => ?_⟩
            exact (hfin' _ _ hj).resolve_right fun hx => x.peer_ne hx.1
          · rw [World.toldPeer_slotPtr_peer hmet, Role.peer_peer]
            refine iff_of_true rfl ?_
            change Fin l (w.toldPeer l r) r (w.side r.peer).cur
            rw [hmet.1]
            exact hself
        joined := fun x hx hplan => by
          rcases h.inv.joined x ((hlive x).1 hx) hplan with hover | hmet
          · exact .inl hover
          · exact .inr ⟨hmet.1, (hlive _).2 hmet.2⟩
        kept := fun x j hj hnot => (h.inv.kept x j hj hnot).imp_left fun hx => ⟨(hlive x).2 hx.1, hx.2⟩
        distinct := fun x j hj hx hnot => h.inv.distinct x j hj ((hlive x).1 hx) hnot
        room := fun x hx hmet hc => h.inv.room x ((hlive x).1 hx) ⟨hmet.1, (hlive _).1 hmet.2⟩ hc
        finished := fun x j hj => by
          rcases hfin' x j hj with hj | ⟨rfl, rfl⟩
          · exact mem_append_left _ (h.inv.finished x j hj)
          · exact mem_append_right _ mem_cons_self
        written := fun x hx j' i o n f hmem => by
          refine h.inv.written x hx j' i o n f ?_
          simpa [World.toldPeer] using hmem
        allowed := h.inv.allowed.concat fun hr => by
          rw [hcur]
          exact h.moved hall hr }
  · rw [World.toldPeer_slotPtr_self]

theorem tellPeer_eq (hdone : (w.slotPtr l r).done = false) : tellPeer l r w = (none, w.toldPeer l r) := by
  have hpeer : (w.setSlotPtr l r { w.slotPtr l r with done := true }).peerSlotPtr l r = w.peerSlotPtr l r :=
    update_of_ne (l.idx_ne r _ _).symm _ _
  unfold tellPeer
  dsimp only
  rw [if_pos hdone, hpeer]
  rfl

theorem tellPeer_spec (h : Planned C r k w) (hall : (w.side r).transmitted = (l.transfer k).steps) :
    Body.Post (fun w => Turn C r k w ∧ (w.slotPtr l r).done = true) (Ended C r) (tellPeer l r w) := by
  by_cases hdone : (w.slotPtr l r).done = false
  · have hmet : Met l w r := h.inv.met h.live hdone h.entered
    have htold := h.toldPeer hall hmet
    rw [tellPeer_eq hdone]
    exact ⟨htold.1, htold.2.1⟩
  · unfold tellPeer
    rw [if_neg hdone]
    exact ⟨h.toTurn, by simpa using hdone⟩

/-- The state after a side has freed its slot. -/
def World.retired (w : World) (l : Link) (r : Role) : World where
  slots := update w.slots (l.idx r (w.side r).cur) { w.slotPtr l r with opHash := freeHash }
  regInfos := w.regInfos
  side := update w.side r { w.side r with done := true }
  trace := w.trace ++ [.reported r (w.side r).cur]

theorem World.retired_cur (x : Role) : ((w.retired l r).side x).cur = (w.side x).cur := by
  rcases Role.eq_or_eq_peer r x with rfl | rfl
  · simp [retired]
  · simp [retired, r.peer_ne]

theorem World.retired_side_peer : (w.retired l r).side r.peer = w.side r.peer := update_of_ne r.peer_ne _ _

theorem World.retired_slotPtr_peer : (w.retired l r).slotPtr l r.peer = w.slotPtr l r.peer := by
  rw [slotPtr, retired_side_peer]
  exact update_of_ne (l.idx_ne r _ _).symm _ _

theorem World.retired_over (hlive : Live l w r) (x : Role) (j : Nat) :
    Over (w.retired l r) x j ↔ Over w x j ∨ x = r ∧ j = (w.side r).cur := by
  rcases Role.eq_or_eq_peer r x with rfl | rfl
  · simp [Over, retired, hlive.1]
  · simp [Over, World.retired_side_peer, r.peer_ne]

theorem Turn.retired (h : Turn C r k w) (hdone : (w.slotPtr l r).done = true) (htold : (w.slotPtr l r).peerDone = true) :
    Inv C (w.retired l r) := by
  have hover := World.retired_over h.live
  have hdead : ¬ Live l (w.retired l r) r := by
    intro hlive
    have hd := hlive.1
    simp [World.retired] at hd
  have hlive : Live l (w.retired l r) r.peer ↔ Live l w r.peer := by
    rw [Live, Live, World.retired_side_peer, World.retired_slotPtr_peer]
  have hfin : ∀ x j, Fin l (w.retired l r) x j ↔ Fin l w x j := by
    intro x j
    rcases Role.eq_or_eq_peer r x with rfl | rfl
    · have hself := h.live.fin_iff.2 hdone
      constructor
      · rintro (hj | ⟨-, hx, -⟩)
        · rcases (hover x j).1 hj with hj | ⟨-, rfl⟩
          · exact .of_over hj
          · exact hself
        · exact absurd hx hdead
      · rintro (hj | ⟨rfl, -, -⟩)
        · exact .of_over ((hover x j).2 (.inl hj))
        · exact .of_over ((hover x _).2 (.inr ⟨rfl, rfl⟩))
    · rw [Fin, Fin, hlive, World.retired_side_peer, World.retired_slotPtr_peer, hover]
      simp [r.peer_ne]
  have hpeerfin : Fin l w r.peer (w.side r).cur := (h.inv.told r h.live).1 htold
  have hfinished : ∀ x, .finished x (w.side r).cur ∈ w.trace := by
    intro x
    rcases Role.eq_or_eq_peer r x with rfl | rfl
    · exact h.inv.finished _ _ (h.live.fin_iff.2 hdone)
    · exact h.inv.finished _ _ hpeerfin
  have hmoved : Moved l w.trace (w.side r).cur := by
    obtain ⟨pre, post, htrace, hallowed⟩ := h.inv.allowed.of_mem (hfinished .recv)
    exact (hallowed rfl).mono (by simp [htrace])
  exact
    { idle := fun x hx hd => by
        rcases Role.eq_or_eq_peer r x with rfl | rfl
        · simp [World.retired] at hd
        · rw [World.retired_side_peer] at hd ⊢
          exact h.inv.idle _ (fun hx' => hx (hlive.2 hx')) hd
      free := fun x j => by
        rcases Role.eq_or_eq_peer r x with rfl | rfl
        · left
          by_cases hj : l.idx x j = l.idx x (w.side x).cur
          · simp [World.retired, hj]
          · rcases h.inv.free x j with hfree | ⟨-, heq⟩
            · simp [World.retired, hj, hfree]
            · exact absurd heq hj
        · rw [hlive, World.retired_side_peer,
            show (w.retired l r).slots (l.idx r.peer j) = w.slots (l.idx r.peer j) from update_of_ne (l.idx_ne r _ _).symm _ _]
          exact h.inv.free _ j
      head := fun x hx => by
        rcases Role.eq_or_eq_peer r x with rfl | rfl
        · exact absurd hx hdead
        · rw [World.retired_side_peer, World.retired_slotPtr_peer, World.regInfoPtr, World.retired_side_peer]
          exact (h.inv.head _ (hlive.1 hx)).mono (subset_append_left _ _)
      along := fun x j hj => by
        rw [hfin]
        rcases (hover x j).1 hj with hj | ⟨rfl, rfl⟩
        · exact h.inv.along x j hj
        · exact hpeerfin
      told := fun x hx => by
        rcases Role.eq_or_eq_peer r x with rfl | rfl
        · exact absurd hx hdead
        · rw [World.retired_slotPtr_peer, World.retired_side_peer, hfin]
          exact h.inv.told _ (hlive.1 hx)
      joined := fun x hx hoffer => by
        rcases Role.eq_or_eq_peer r x with rfl | rfl
        · exact absurd hx hdead
        · rw [World.regInfoPtr, World.retired_side_peer] at hoffer
          rw [World.retired_side_peer]
          left
          rw [Role.peer_peer, hover]
          rcases h.inv.joined _ (hlive.1 hx) hoffer with hj | ⟨hcur, -⟩
          · rw [Role.peer_peer] at hj
            exact .inl hj
          · rw [Role.peer_peer] at hcur
            exact .inr ⟨rfl, hcur.symm⟩
      kept := fun x j hj hnot => by
        right
        rw [hover] at hj hnot
        rcases Role.eq_or_eq_peer r x with rfl | rfl
        · rcases hj with hj | ⟨-, rfl⟩
          · -- the peer has finished the operation at the head, so it has reported the ones before
            have := hpeerfin.le
            exact absurd (.inl (.inl (lt_of_lt_of_le (h.live.lt_of_over hj) this))) hnot
          · exact (h.head.planned fun hpending => by
              rw [(h.head.pending hpending).2] at hdone
              cases hdone).2
        · rw [Role.peer_peer] at hnot
          have hj' := hj.resolve_right fun hx => r.peer_ne hx.1
          refine ((h.inv.kept _ j hj' ?_).resolve_left fun hx => ?_)
          · rw [Role.peer_peer]
            exact fun hj => hnot (.inl hj)
          · -- a live peer that has reported more than the side is one operation ahead
            refine hnot (.inr ⟨rfl, ?_⟩)
            have hfin := (h.inv.along r.peer j hj').le
            rw [Role.peer_peer] at hfin
            have hge : ¬ j < (w.side r).cur := fun hlt => hnot (.inl (.inl hlt))
            omega
      distinct := fun x j hj hx hnot => by
        rcases Role.eq_or_eq_peer r x with rfl | rfl
        · exact absurd hx hdead
        · rw [World.retired_cur] at hj
          exact h.inv.distinct _ j hj (hlive.1 hx) fun hj' => hnot ((hover _ _).2 (.inl hj'))
      room := fun x hx hmet hc => by
        rcases Role.eq_or_eq_peer r x with rfl | rfl
        · exact absurd hx hdead
        · have := hmet.2
          rw [Role.peer_peer] at this
          exact absurd this hdead
      finished := fun x j hj => mem_append_left _ (h.inv.finished x j ((hfin x j).1 hj))
      written := fun x hx j' i o n f hmem => by
        have hmem' : .chunk x j' i o n f ∈ w.trace := by simpa [World.retired] using hmem
        rw [hover]
        rcases Role.eq_or_eq_peer r x with rfl | rfl
        · rcases h.inv.written x h.awake j' i o n f hmem' with hj | ⟨hj, -⟩
          · exact .inl (.inl hj)
          · exact .inl (.inr ⟨rfl, hj⟩)
        · rw [World.retired_side_peer] at hx ⊢
          rcases h.inv.written _ hx j' i o n f hmem' with hj | hj
          · exact .inl (.inl hj)
          · exact .inr hj
      allowed := h.inv.allowed.concat ⟨hfinished .send, hfinished .recv, hmoved⟩ }

theorem retire_spec (h : Turn C r k w) (hdone : (w.slotPtr l r).done = true) :
    Body.Post (Inv C) (Ended C r) (retire l r w) := by
  unfold retire
  split
  · rename_i hcomplete
    exact h.retired hdone hcomplete.2
  · exact h.inv

/-- The state after a slot was reset for the operation at the head. -/
def World.opened (w : World) (l : Link) (r : Role) : World :=
  w.act l r (w.side r) ⟨0, l.chunks, l.hash r (w.side r).cur, false, false⟩ .zero [.reset r (w.side r).cur]

/-- A slot may be taken for the operation at the head: the peer is done with the one before, or it is not in conflict with it. -/
def Clear {l : Link} (C : Conflict l) (w : World) (r : Role) : Prop :=
  ∀ k, (w.side r).cur = k + 1 → ¬ Over w r.peer k → ¬ C.rel r k

theorem Inv.opened (h : Inv C w) (hawake : (w.side r).halted = false) (hbusy : (w.side r).done = false)
    (hfree : (w.slotPtr l r).opHash = freeHash) (hclear : Clear C w r) : Turn C r (w.side r).cur (w.opened l r) := by
  have hdead : ¬ Live l w r := fun hlive => l.hash_ne_free _ _ (hlive.2.symm.trans hfree)
  have hidle := h.idle r hdead hbusy
  have hnotover : ¬ Over w r (w.side r).cur := by simp [Over, hbusy]
  have hnotfin : ¬ Fin l w r (w.side r).cur := by
    rintro (hj | ⟨-, hlive, -⟩)
    · exact hnotover hj
    · exact hdead hlive
  have hslot : (w.opened l r).slotPtr l r = ⟨0, l.chunks, l.hash r (w.side r).cur, false, false⟩ :=
    World.act_slotPtr_self rfl
  have hside : ∀ x, (w.opened l r).side x = w.side x := by
    intro x
    simp [World.opened, World.act]
  have hover : ∀ x j, Over (w.opened l r) x j ↔ Over w x j := by
    intro x j
    rw [Over, Over, hside]
  have hlive : Live l (w.opened l r) r := ⟨by rw [hside, hbusy], by rw [hslot, hside]⟩
  have hpeer : Live l (w.opened l r) r.peer ↔ Live l w r.peer := by
    rw [Live, Live, hside, World.opened, World.act_slotPtr_peer]
  have hfin : ∀ x j, Fin l (w.opened l r) x j ↔ Fin l w x j := by
    intro x j
    rw [Fin, Fin, hover, hside]
    rcases Role.eq_or_eq_peer r x with rfl | rfl
    · simp [hslot, hdead]
    · rw [hpeer, World.opened, World.act_slotPtr_peer]
  -- a peer that is at the operation has made no plan yet
  have hpending : Live l w r.peer → (w.side r.peer).cur = (w.side r).cur → (w.side r.peer).p2pPlan = .pending := by
    intro hx hcur
    by_contra hne
    rcases h.joined r.peer hx ((h.head _ hx).planned hne).2 with hj | hmet
    · rw [Role.peer_peer, hcur] at hj
      exact hnotover hj
    · have := hmet.2
      rw [Role.peer_peer] at this
      exact hdead this
  have hpeerfin : ¬ Fin l w r.peer (w.side r).cur := by
    rintro (hj | ⟨hcur, hx, hdone⟩)
    · have := h.along _ _ hj
      rw [Role.peer_peer] at this
      exact hnotfin this
    · have := ((h.head _ hx).pending (hpending hx hcur.symm)).2
      rw [this] at hdone
      cases hdone
  refine ⟨?_, hlive, by rw [hside, hawake], by rw [hside]⟩
  exact
    { idle := fun x hx hd => by
        rcases Role.eq_or_eq_peer r x with rfl | rfl
        · exact absurd hlive hx
        · rw [hside] at hd ⊢
          exact h.idle _ (fun hx' => hx (hpeer.2 hx')) hd
      free := fun x j => by
        rcases Role.eq_or_eq_peer r x with rfl | rfl
        · by_cases hj : l.idx x j = l.idx x (w.side x).cur
          · exact .inr ⟨hlive, by rw [hside, hj]⟩
          · left
            rcases h.free x j with hfree | ⟨hx, -⟩
            · rw [← hfree]
              exact congrArg SyncSlot.opHash (update_of_ne hj _ _)
            · exact absurd hx hdead
        · rw [hpeer, hside, World.opened, World.act_slots_peer]
          exact h.free _ j
      head := fun x hx => by
        rcases Role.eq_or_eq_peer r x with rfl | rfl
        · rw [hslot, hside, World.opened, World.act_regInfoPtr_self rfl]
          exact
            { offered := fun hready => by cases hready
              pending := fun _ => ⟨hidle, rfl⟩
              planned := fun hne => absurd hidle.plan hne
              finished := fun hdone => by cases hdone
              copyDone := fun hdone => by cases hdone
              direct := fun c _ =>
                { copied := .inl hidle.copied
                  transmitted := .inl hidle.transmitted
                  le := by rw [hidle.transmitted]; exact Nat.zero_le _
                  issued := fun hne => absurd hidle.copied hne
                  waited := fun _ => by rw [hidle.transmitted, hidle.copied]
                  done := fun hne => absurd hidle.transmitted hne
                  flag := fun hne => absurd hidle.transmitted hne }
              chunked := fun _ =>
                { le := by rw [hidle.transmitted]; exact Nat.zero_le _
                  steps := by rw [hidle.copied]; exact Nat.zero_le _
                  room := by rw [hidle.copied]; exact Nat.zero_le _
                  total := by rw [hidle.total, hidle.copied]; simp [Chunking.offset]
                  slot := by rw [hidle.transmitted]; cases x <;> simp [SyncSlot.advance]
                  event := fun j _ hj => by rw [hidle.copied] at hj; cases hj
                  issued := fun j hj => by rw [hidle.copied] at hj; cases hj
                  done := fun j hj => by rw [hidle.transmitted] at hj; cases hj } }
        · rw [hside, World.opened, World.act_slotPtr_peer, World.act_regInfoPtr_peer]
          exact (h.head _ (hpeer.1 hx)).mono (subset_append_left _ _)
      along := fun x j hj => (hfin _ _).2 (h.along x j ((hover x j).1 hj))
      told := fun x hx => by
        rw [hfin, hside]
        rcases Role.eq_or_eq_peer r x with rfl | rfl
        · rw [hslot]
          exact iff_of_false Bool.false_ne_true hpeerfin
        · rw [World.opened, World.act_slotPtr_peer]
          exact h.told _ (hpeer.1 hx)
      joined := fun x hx hoffer => by
        rw [hover, hside]
        rcases Role.eq_or_eq_peer r x with rfl | rfl
        · rw [World.opened, World.act_regInfoPtr_self rfl] at hoffer
          cases hoffer
        · rw [World.opened, World.act_regInfoPtr_peer] at hoffer
          refine (h.joined _ (hpeer.1 hx) hoffer).imp_right fun hmet => ?_
          have := hmet.2
          rw [Role.peer_peer] at this
          exact absurd this hdead
      kept := fun x j hj hnot => by
        rw [hover] at hj hnot
        rw [hside]
        rcases Role.eq_or_eq_peer r x with rfl | rfl
        · by_cases hidx : l.idx x j = l.idx x (w.side x).cur
          · exact .inl ⟨hlive, hidx⟩
          · right
            rw [show (w.opened l x).regInfos (l.idx x j) = w.regInfos (l.idx x j) from update_of_ne hidx _ _]
            exact (h.kept x j hj hnot).resolve_left fun hx => hdead hx.1
        · rw [hpeer, World.opened, World.act_regInfos_peer]
          exact h.kept _ j hj hnot
      distinct := fun x j hj hx hnot => by
        rw [hside] at hj
        rw [hover] at hnot
        rcases Role.eq_or_eq_peer r x with rfl | rfl
        · exact hclear j hj hnot
        · exact h.distinct _ j hj (hpeer.1 hx) hnot
      room := fun x hx hmet hc => by
        have hcur := hmet.1
        rw [hside, hside] at hcur
        have hcopied : Live l w r.peer → (w.side r.peer).cur = (w.side r).cur → (w.side r.peer).copied = 0 :=
          fun hlive hcur => ((h.head _ hlive).pending (hpending hlive hcur)).1.copied
        rcases Role.eq_or_eq_peer r x with rfl | rfl
        · have hzero := hcopied (hpeer.1 hmet.2) hcur
          cases x with
          | send =>
            change (w.side .send).copied ≤ _
            rw [hidle.copied]
            exact Nat.zero_le _
          | recv =>
            change (w.side .send).copied ≤ _
            rw [show (w.side .send).copied = 0 from hzero]
            exact Nat.zero_le _
        · rw [Role.peer_peer] at hcur ⊢
          have hzero := hcopied (hpeer.1 hx) hcur.symm
          cases r with
          | send =>
            change (w.side .send).copied ≤ _
            rw [hidle.copied]
            exact Nat.zero_le _
          | recv =>
            change (w.side .send).copied ≤ _
            rw [show (w.side .send).copied = 0 from hzero]
            exact Nat.zero_le _
      finished := fun x j hj => mem_append_left _ (h.finished x j ((hfin x j).1 hj))
      written := fun x hx j' i o n f hmem => by
        rw [hside] at hx ⊢
        rw [hover]
        exact h.written x hx j' i o n f (by simpa [World.opened, World.act] using hmem)
      allowed := h.allowed.concat fun j hj => ⟨h.finished _ _ (h.fin_of_lt hj .send), h.finished _ _ (h.fin_of_lt hj .recv)⟩ }

/-! ### A call -/

section

variable (h : Planned C r k w) (hfit : (l.transfer k).Fits)
include h hfit

theorem orFinish_eq (move : Body Result World) :
    orFinish l r move w = if (w.side r).transmitted < (l.transfer k).steps then move w
      else Body.andThen (tellPeer l r) (retire l r) w := by
  have hsteps : (l.transfer (w.side r).cur).chunkSteps = (l.transfer k).steps := by rw [h.cur, hfit.chunkSteps]
  unfold orFinish
  dsimp only
  rw [hsteps]
  by_cases hlt : (w.side r).transmitted < (l.transfer k).steps
  · rw [if_pos hlt, if_pos (by exact_mod_cast hlt)]
  · rw [if_neg hlt, if_neg (by exact_mod_cast hlt)]

theorem orFinish_spec {move : Body Result World}
    (hmove : (w.side r).transmitted < (l.transfer k).steps → Body.Post (Planned C r k) (Ended C r) (move w)) :
    Body.Post (Inv C) (Ended C r) (orFinish l r move w) := by
  rw [orFinish_eq h hfit]
  split
  · rename_i hlt
    exact (hmove hlt).mono (fun _ hw => hw.inv) fun _ _ hw => hw
  · rename_i hge
    exact (tellPeer_spec h (h.all (Nat.le_of_not_lt hge))).andThen fun w' hw => retire_spec hw.1 hw.2

theorem transferData_spec (ans : Answers) : Body.Post (Inv C) (Ended C r) (transferData l r ans w) := by
  unfold transferData
  rw [h.plan]
  cases hc : copier (l.planOf k) with
  | none =>
    refine orFinish_spec h hfit fun hlt => ?_
    exact (issueChunk_spec h hfit ans hc hlt).andThen fun w' hw => queryChunk_spec hw ans hc
  | some c =>
    dsimp only
    by_cases hr : r = c
    · subst hr
      rw [if_pos rfl]
      refine orFinish_spec h hfit fun hlt => ?_
      exact (issueDirect_spec h hfit ans hc hlt).andThen fun w' hw => queryDirect_spec hw hfit ans hc
    · rw [if_neg hr]
      have hpeer : c = r.peer := (Role.eq_or_eq_peer r c).resolve_left (Ne.symm hr)
      exact orFinish_spec h hfit fun hlt => awaitDirect_spec h hfit (by rw [hc, hpeer]) hlt

end

theorem handshake_spec (h : Turn C r k w) (hfit : (l.transfer k).Fits) (ans : Answers) :
    Body.Post (Inv C) (Ended C r) (handshake l r ans w) := by
  refine (peerSlot_spec h).andThen fun w₁ h₁ => ?_
  refine (publishOffer_spec h₁.1 h₁.2).andThen fun w₂ h₂ => ?_
  refine (awaitOffer_spec h₂.1 h₂.2.1 h₂.2.2).andThen fun w₃ h₃ => ?_
  refine (resolvePlan_spec h₃.1 h₃.2.1 h₃.2.2.1 h₃.2.2.2).andThen fun w₄ h₄ => ?_
  exact transferData_spec h₄ hfit ans

theorem ownSlot_spec (h : Inv C w) (hawake : (w.side r).halted = false) (hbusy : (w.side r).done = false) :
    Body.Post (Turn C r (w.side r).cur) (Ended C r) (ownSlot l r w) := by
  unfold ownSlot
  split
  · exact h
  · rename_i hown
    exact ⟨h, ⟨hbusy, by simpa using hown⟩, hawake, rfl⟩

theorem resetSlot_eq (hfree : (w.slotPtr l r).opHash = freeHash) : resetSlot l r w = (none, w.opened l r) := by
  unfold resetSlot
  rw [if_pos hfree]
  simp [World.opened, World.act, World.setRegInfoPtr, World.setSlotPtr, World.setReg, World.setSlot, World.log]

theorem open_spec (h : Inv C w) (hawake : (w.side r).halted = false) (hbusy : (w.side r).done = false) (hclear : Clear C w r) :
    Body.Post (Turn C r (w.side r).cur) (Ended C r) (Body.andThen (resetSlot l r) (ownSlot l r) w) := by
  by_cases hfree : (w.slotPtr l r).opHash = freeHash
  · have hopened := h.opened hawake hbusy hfree hclear
    rw [Body.andThen_of_none (resetSlot_eq hfree)]
    have hown := ownSlot_spec (r := r) hopened.inv hopened.awake hopened.live.1
    rwa [hopened.cur] at hown
  · have hreset : resetSlot l r w = (none, w) := by
      unfold resetSlot
      rw [if_neg hfree]
    rw [Body.andThen_of_none hreset]
    exact ownSlot_spec h hawake hbusy

theorem progress_spec (h : Inv C w) (hawake : (w.side r).halted = false) (hfit : (l.transfer (w.side r).cur).Fits)
    (ans : Answers) (hclear : ans.pollStart = true → (w.side r).done = false → Clear C w r) :
    Ended C r (progress l r ans w).1 (progress l r ans w).2 := by
  refine Body.Post.call (Q := Inv C) ?_ fun _ hw => hw
  split
  · exact h
  · rename_i hbusy
    rw [Bool.not_eq_true] at hbusy
    split
    · exact h
    · rename_i hstart
      have hopen := open_spec h hawake hbusy (hclear (by simpa using hstart) hbusy)
      rw [← Body.andThen_assoc]
      exact hopen.andThen fun w' hw => handshake_spec hw hfit ans

theorem Inv.next (h : Inv C w) (hdone : (w.side r).done = true) :
    Inv C (w.setSide r ((w.side r).start ((w.side r).cur + 1))) := by
  have hdead : ¬ Live l w r := fun hlive => by
    have := hlive.1
    rw [hdone] at this
    cases this
  generalize hw' : w.setSide r ((w.side r).start ((w.side r).cur + 1)) = w'
  have hself : w'.side r = (w.side r).start ((w.side r).cur + 1) := by
    rw [← hw']
    exact update_self _ _ _
  have hother : w'.side r.peer = w.side r.peer := by
    rw [← hw']
    exact update_of_ne r.peer_ne _ _
  have hslots : w'.slots = w.slots := by rw [← hw']; rfl
  have hregs : w'.regInfos = w.regInfos := by rw [← hw']; rfl
  have htrace : w'.trace = w.trace := by rw [← hw']; rfl
  have hpeerslot : w'.slotPtr l r.peer = w.slotPtr l r.peer := by rw [World.slotPtr, World.slotPtr, hslots, hother]
  have hfree : ∀ j, (w.slots (l.idx r j)).opHash = freeHash := fun j => (h.free r j).resolve_right fun hx => hdead hx.1
  have hdead' : ¬ Live l w' r := by
    intro hlive
    have hhash := hlive.2
    rw [World.slotPtr, hslots, hfree] at hhash
    exact l.hash_ne_free _ _ hhash.symm
  have hpeer : Live l w' r.peer ↔ Live l w r.peer := by rw [Live, Live, hother, hpeerslot]
  have hover : ∀ x j, Over w' x j ↔ Over w x j := by
    intro x j
    rcases Role.eq_or_eq_peer r x with rfl | rfl
    · simp [Over, hself, Side.start, hdone]
      omega
    · rw [Over, Over, hother]
  have hfin : ∀ x j, Fin l w' x j ↔ Fin l w x j := by
    intro x j
    rw [Fin, Fin, hover]
    rcases Role.eq_or_eq_peer r x with rfl | rfl
    · simp [hdead, hdead']
    · rw [hpeer, hother, hpeerslot]
  exact
    { idle := fun x hx hd => by
        rcases Role.eq_or_eq_peer r x with rfl | rfl
        · rw [hself]
          exact ⟨rfl, rfl, rfl, rfl⟩
        · rw [hother] at hd ⊢
          exact h.idle _ (fun hx' => hx (hpeer.2 hx')) hd
      free := fun x j => by
        rw [hslots]
        rcases Role.eq_or_eq_peer r x with rfl | rfl
        · exact .inl (hfree j)
        · rw [hpeer, hother]
          exact h.free _ j
      head := fun x hx => by
        rcases Role.eq_or_eq_peer r x with rfl | rfl
        · exact absurd hx hdead'
        · rw [hother, hpeerslot, World.regInfoPtr, hregs, hother, htrace]
          exact h.head _ (hpeer.1 hx)
      along := fun x j hj => (hfin _ _).2 (h.along x j ((hover x j).1 hj))
      told := fun x hx => by
        rcases Role.eq_or_eq_peer r x with rfl | rfl
        · exact absurd hx hdead'
        · rw [hfin, hother, hpeerslot]
          exact h.told _ (hpeer.1 hx)
      joined := fun x hx hoffer => by
        rcases Role.eq_or_eq_peer r x with rfl | rfl
        · exact absurd hx hdead'
        · rw [World.regInfoPtr, hregs, hother] at hoffer
          rw [hother, hover]
          refine (h.joined _ (hpeer.1 hx) hoffer).imp_right fun hmet => ?_
          have := hmet.2
          rw [Role.peer_peer] at this
          exact absurd this hdead
      kept := fun x j hj hnot => by
        rw [hover] at hj hnot
        rw [hregs]
        rcases Role.eq_or_eq_peer r x with rfl | rfl
        · exact .inr ((h.kept x j hj hnot).resolve_left fun hx => hdead hx.1)
        · rw [hpeer, hother]
          exact h.kept _ j hj hnot
      distinct := fun x j hj hx hnot => by
        rcases Role.eq_or_eq_peer r x with rfl | rfl
        · exact absurd hx hdead'
        · rw [hother] at hj
          rw [hover] at hnot
          exact h.distinct _ j hj (hpeer.1 hx) hnot
      room := fun x hx hmet _ => by
        rcases Role.eq_or_eq_peer r x with rfl | rfl
        · exact absurd hx hdead'
        · have := hmet.2
          rw [Role.peer_peer] at this
          exact absurd this hdead'
      finished := fun x j hj => by
        rw [htrace]
        exact h.finished x j ((hfin x j).1 hj)
      written := fun x hx j' i o n f hmem => by
        rw [htrace] at hmem
        rw [hover]
        rcases Role.eq_or_eq_peer r x with rfl | rfl
        · rw [hself] at hx
          refine .inl ?_
          rcases h.written x hx j' i o n f hmem with hj | ⟨hj, -⟩
          · exact hj
          · exact .inr ⟨hj, hdone⟩
        · rw [hother] at hx ⊢
          exact h.written _ hx j' i o n f hmem
      allowed := by
        rw [htrace]
        exact h.allowed }

theorem Inv.init (C : Conflict l) : Inv C (World.init l) := by
  have hdead : ∀ r, ¬ Live l (World.init l) r := fun r hlive => l.hash_ne_free _ _ hlive.2.symm
  have hover : ∀ r k, ¬ Over (World.init l) r k := by
    intro r k
    simp [Over, World.init, Side.start]
  have hfin : ∀ r k, ¬ Fin l (World.init l) r k := fun r k hk => hk.elim (hover r k) fun hk => hdead r hk.2.1
  exact
    { idle := fun _ _ _ => ⟨rfl, rfl, rfl, rfl⟩
      free := fun _ _ => .inl rfl
      head := fun r hr => absurd hr (hdead r)
      along := fun r k hk => absurd hk (hover r k)
      told := fun r hr => absurd hr (hdead r)
      joined := fun r hr => absurd hr (hdead r)
      kept := fun r k hk => absurd hk (hover r k)
      distinct := fun r _ _ hr => absurd hr (hdead r)
      room := fun r hr => absurd hr (hdead r)
      finished := fun r k hk => absurd hk (hfin r k)
      written := fun r _ k j o n f hmem => by cases hmem
      allowed := justified_nil _ }

theorem Inv.step (h : Inv C w) {a : Role × Answers} {w' : World} (hstep : step l w a = some w')
    (hfit : ∀ k < l.count, (l.transfer k).Fits)
    (hclear : a.2.pollStart = true → (w.side a.1).done = false → Clear C w a.1) : Inv C w' := by
  unfold P2pShm.step at hstep
  dsimp only at hstep
  split_ifs at hstep with hblocked
  rw [progressProxyOp_eq] at hstep
  obtain rfl := some.inj hstep
  have hawake : (w.side a.1).halted = false := by
    by_contra hne
    exact hblocked (.inl (by simpa using hne))
  have hcur : (w.side a.1).cur < l.count := Nat.lt_of_not_le fun hle => hblocked (.inr hle)
  have hended := progress_spec h hawake (hfit _ hcur) a.2 hclear
  unfold Ended at hended
  unfold afterCall
  cases hok : (progress l a.1 a.2 w).1.accepted with
  | false =>
    rw [hok, if_neg Bool.false_ne_true] at hended
    simpa [hok] using hended
  | true =>
    rw [hok, if_pos rfl] at hended
    rw [if_neg (by simp)]
    split
    · rename_i hdone
      exact hended.next hdone.1
    · exact hended

end Moves

/-! ## Every run -/

/-- Byte `b` of operation `k` was copied from the send buffer to the same place of the receive buffer: with its chunk into the
FIFO and, after that, out of it, or with the whole message to or from the address of the peer. -/
def Delivered (l : Link) (trace : List Event) (k b : Nat) : Prop :=
  match copier (l.planOf k) with
  | some c => [.direct c k ((l.transfer k).registration c.peer).rmtAddr (l.transfer k).size, .directDone c k].Sublist trace
  | none => ∃ j, (l.transfer k).offset j ≤ b ∧ b < (l.transfer k).offset j + (l.transfer k).length j ∧
      [chunkEvent l .send k j, .chunkDone .send k j, chunkEvent l .recv k j, .chunkDone .recv k j].Sublist trace

/-- The two sides make the same plan. The receiver reports an operation when all its bytes are delivered. A place of the FIFO is
written or read when it is free for that. A slot is reset when both sides have finished all earlier operations. -/
structure Safe (l : Link) (trace : List Event) : Prop where
  plan : ∀ k p q, .planned .send k p ∈ trace → .planned .recv k q ∈ trace → p = q
  delivered : ∀ pre post k, trace = pre ++ .reported .recv k :: post → ∀ b < (l.transfer k).size, Delivered l pre k b
  fifo : ∀ pre post r k j o n f, trace = pre ++ .chunk r k j o n f :: post → FifoFree l pre k j r
  reset : ∀ pre post r k, trace = pre ++ .reset r k :: post → ∀ j < k, .finished .send j ∈ pre ∧ .finished .recv j ∈ pre

section Safe
variable {l : Link} {trace : List Event} {k j : Nat}

section

variable (h : Justified (Allowed l) trace)
include h

theorem chunk_chain (hdone : .chunkDone .recv k j ∈ trace) :
    [chunkEvent l .send k j, .chunkDone .send k j, chunkEvent l .recv k j, .chunkDone .recv k j].Sublist trace := by
  obtain ⟨pre₁, post₁, rfl, hread⟩ := h.of_mem hdone
  obtain ⟨pre₂, post₂, rfl, -, -, -, hsent, -⟩ := h.of_append.of_mem hread
  obtain ⟨pre₃, post₃, rfl, hwritten⟩ := h.of_append.of_append.of_mem hsent
  have h₃ := singleton_sublist.2 hwritten
  have h₂ := h₃.append (singleton_sublist.2 (mem_cons_self (a := Event.chunkDone .send k j) (l := post₃)))
  have h₁ := h₂.append (singleton_sublist.2 (mem_cons_self (a := chunkEvent l .recv k j) (l := post₂)))
  exact h₁.append (singleton_sublist.2 (mem_cons_self (a := Event.chunkDone .recv k j) (l := post₁)))

theorem Moved.delivered (hmoved : Moved l trace k) {b : Nat} (hb : b < (l.transfer k).size) : Delivered l trace k b := by
  unfold Delivered
  cases hc : copier (l.planOf k) with
  | some c =>
    have hdone := (moved_of_copier hc).1 hmoved (ne_of_gt (Nat.zero_lt_of_lt hb))
    obtain ⟨pre, post, rfl, addr, size, hissued⟩ := h.of_mem hdone
    obtain ⟨-, -, -, -, rfl, rfl⟩ := h.of_append.of_mem hissued
    exact (singleton_sublist.2 hissued).append (singleton_sublist.2 (mem_cons_self (a := Event.directDone c k) (l := post)))
  | none =>
    obtain ⟨j, hlow, hhigh, hdone⟩ := (moved_of_fifo hc).1 hmoved b hb
    exact ⟨j, hlow, hhigh, chunk_chain h hdone⟩

theorem Safe.of_justified : Safe l trace where
  plan k p q hp hq := by
    obtain ⟨-, -, -, rfl⟩ := h.of_mem hp
    obtain ⟨-, -, -, rfl⟩ := h.of_mem hq
    rfl
  delivered pre post k htrace b hb := by
    have hpre : Justified (Allowed l) pre := by
      rw [htrace] at h
      exact h.of_append
    exact (h pre _ post htrace).2.2.delivered hpre hb
  fifo pre post r k j o n f htrace := (h pre _ post htrace).2.2.2
  reset pre post r k htrace := h pre _ post htrace

end

end Safe

/-- A side does not call for an operation in conflict with the one before, unless the peer is done with that one. -/
def Careful {l : Link} (C : Conflict l) (w : World) (a : Role × Answers) : Prop :=
  a.2.pollStart = true → (w.side a.1).done = false → Clear C w a.1

def Conflict.hash (l : Link) : Conflict l := ⟨fun r k => l.hash r (k + 1) = l.hash r k, fun _ _ => id⟩

/-- The slot protocol is safe in every run that is careful in this sense, if the numbers of the chunks fit their types. -/
theorem slots_safe (l : Link) (hfit : ∀ k < l.count, (l.transfer k).Fits) {w : World}
    (h : Reach (step l) (Careful (.hash l)) (World.init l) w) : Safe l w.trace :=
  .of_justified (h.invariant (Inv.init _) fun _ _ _ hinv hok hstep => hinv.step hstep hfit hok).allowed

def eightBytes : Link := .plain 1 fun _ => (8, 0, 1)

/-- Eight bytes are sent, and both sides report the operation. -/
theorem slots_safe_eightBytes : ∃ w, Reach (step eightBytes) (Careful (.hash eightBytes)) (World.init eightBytes) w ∧
    .reported .send 0 ∈ w.trace ∧ Safe eightBytes w.trace := by
  have hrun : (exec (fun w a => if decide ((w.side a.1).cur = 0) then step eightBytes w a else none) (World.init eightBytes)
      (prompt oneChunk)).map (fun w => decide (.reported .send 0 ∈ w.trace)) = some true := by
    decide +kernel
  obtain ⟨w, hw, hreported⟩ := map_eq_some_iff.1 hrun
  have hreach : Reach (step eightBytes) (Careful (.hash eightBytes)) (World.init eightBytes) w := by
    refine Reach.of_checked (fun w a hc _ _ k hk => ?_) hw
    rw [of_decide_eq_true hc] at hk
    cases hk
  exact ⟨w, hreach, of_decide_eq_true hreported, slots_safe eightBytes (fun k _ => Link.plain_fits 1 _ k) hreach⟩

/-- Sixteen operations of one signed byte, one of an unsigned byte, and one more of a signed byte. The last two have one hash:
the data type is the fifth bit of a key, and the counter of the last operation is sixteen higher. -/
def sameHash : Link := .plain 18 fun k => if k < 16 then (1, 0, k + 1) else if k = 16 then (1, 1, 1) else (1, 0, 17)

/-- The receiver takes the slots of the operation before for those of the last, and copies a chunk out of the FIFO that the
sender has not copied in. -/
theorem slots_safe_counterexample : sameHash.Prepared .send ∧ sameHash.Prepared .recv ∧
    ∃ w, Reach (step sameHash) (fun _ _ => True) (World.init sameHash) w ∧ ¬ Safe sameHash w.trace := by
  have hrun : (exec (step sameHash) (World.init sameHash)
      (prompt ((List.replicate 17 oneChunk).flatten.dropLast ++ [.recv, .recv, .recv]))).map (fun w =>
        (decide (.chunk .recv 17 0 0 1 0 ∈ w.trace), decide (.chunkDone .send 17 0 ∈ w.trace))) = some (true, false) := by
    decide +kernel
  obtain ⟨w, hw, hpair⟩ := map_eq_some_iff.1 hrun
  obtain ⟨hread, hsent⟩ := Prod.mk.inj hpair
  refine ⟨by decide +kernel, by decide +kernel, w, .of_exec (fun _ _ _ => trivial) hw, fun hsafe => ?_⟩
  obtain ⟨pre, post, htrace⟩ := append_of_mem (of_decide_eq_true hread)
  refine of_decide_eq_false hsent ?_
  rw [htrace]
  exact mem_append_left _ (hsafe.fifo _ _ _ _ _ _ _ _ htrace).1

end FlagCX.P2pShm
