import FlagCX.P2pShm.Safe

/-!
# The slot protocol goes on

* `left`     : how much a side has left to do for its operation.
* `Advance`  : a part of a call either changes nothing or leaves less to do. `Forward` says it of a part whose answers are prompt,
  and `Forward.stuck` is what follows when a sequence of parts has changed nothing.
* `advances` : of two sides at one operation, one can advance.
* `slots_progress` : every run in which no slot is taken over too early can be completed.
* `Wedged.step` : when a slot is taken over too early neither side does anything any more.
-/

namespace FlagCX.P2pShm
open Lib Function Option

/-! ## What is left to do -/

/-- What a side has left to do for the operation at its head: a slot, an offer, a plan, the two counts of chunks and the end. -/
def left (l : Link) (w : World) (r : Role) : Nat :=
  let s := w.side r
  let steps := (l.transfer s.cur).steps
  if s.done then 0
  else if (w.slotPtr l r).opHash = freeHash then 2 * steps + 5
  else (if (w.regInfoPtr l r).offerReady then 0 else 1) + (if s.p2pPlan = .pending then 1 else 0) + (steps - s.copied) +
    (steps - s.transmitted) + (if (w.slotPtr l r).done then 0 else 1) + 1

/-- The side is at the same operation, and the other one is where it was and has as much to do as before. -/
structure Beside (l : Link) (r : Role) (w w' : World) : Prop where
  peer : w'.side r.peer = w.side r.peer
  cur : (w'.side r).cur = (w.side r).cur
  halted : (w'.side r).halted = (w.side r).halted
  left : left l w' r.peer = left l w r.peer

/-- The side has less to do than before, or nothing happened. -/
structure Advance (l : Link) (r : Role) (w w' : World) : Prop where
  own : w' = w ∨ left l w' r < left l w r
  beside : Beside l r w w'

section Advance
variable {l : Link} {r : Role} {w w' w'' : World}

theorem Advance.same (l : Link) (r : Role) (w : World) : Advance l r w w := ⟨.inl rfl, rfl, rfl, rfl, rfl⟩

theorem Beside.trans (h : Beside l r w w') (h' : Beside l r w' w'') : Beside l r w w'' :=
  ⟨h'.peer.trans h.peer, h'.cur.trans h.cur, h'.halted.trans h.halted, h'.left.trans h.left⟩

theorem Advance.trans (h : Advance l r w w') (h' : Advance l r w' w'') : Advance l r w w'' := by
  refine ⟨?_, h.beside.trans h'.beside⟩
  rcases h.own with rfl | hlt
  · exact h'.own
  · rcases h'.own with rfl | hlt'
    · exact .inr hlt
    · exact .inr (hlt'.trans hlt)

theorem Advance.of_eq (h : Advance l r w w') (h' : Advance l r w' w) : w' = w := by
  rcases h.own with heq | hlt
  · exact heq
  · rcases h'.own with heq | hlt'
    · exact heq.symm
    · exact absurd (hlt.trans hlt') (lt_irrefl _)

/-- A part of a call with prompt answers: it advances, and `Q` holds where it falls through. -/
def Forward (l : Link) (r : Role) (w : World) (Q : World → Prop) (out : Option Result × World) : Prop :=
  Body.Post (fun w' => Q w' ∧ Advance l r w w') (fun result w' => result = .success ∧ Advance l r w w') out

variable {Q Q' : World → Prop} {f g : Body Result World}

theorem Forward.andThen (h : Forward l r w Q (f w)) (hg : ∀ w', Q w' → Forward l r w' Q' (g w')) :
    Forward l r w Q' (f.andThen g w) := by
  refine Body.Post.andThen h fun w' hw' => ?_
  exact (hg w' hw'.1).mono (fun w'' hw'' => ⟨hw''.1, hw'.2.trans hw''.2⟩) fun _ w'' hw'' => ⟨hw''.1, hw'.2.trans hw''.2⟩

/-- A part of a call with prompt answers: it has nothing to do, which says `idle`, or it advances. -/
def Works (l : Link) (r : Role) (w : World) (idle : Prop) (out : Option Result × World) : Prop :=
  idle ∧ out = (none, w) ∨ ∃ w', out = (none, w') ∧ left l w' r < left l w r ∧ Beside l r w w'

variable {out : Option Result × World}

theorem Works.forward {R : Result → World → Prop} {idle : Prop} (h : Works l r w idle out)
    (hspec : Body.Post Q R out) : Forward l r w Q out := by
  rcases h with ⟨-, rfl⟩ | ⟨w', rfl, hlt, hbeside⟩
  · exact ⟨hspec, .same l r w⟩
  · exact ⟨hspec, .inr hlt, hbeside⟩

theorem Works.stuck {idle : Prop} (h : Works l r w idle out) (hstuck : out.2 = w) : idle ∧ out = (none, w) := by
  rcases h with hidle | ⟨w', rfl, hlt, -⟩
  · exact hidle
  · rw [show w' = w from hstuck] at hlt
    exact absurd hlt (lt_irrefl _)

theorem Forward.stuck (h : Forward l r w Q (f w)) (hg : ∀ w', Q w' → Forward l r w' Q' (g w'))
    (hstuck : (f.andThen g w).2 = w) : (f w).2 = w ∧ ((f w).1 = none → Q w ∧ (g w).2 = w) := by
  rcases hf : f w with ⟨_ | result, w'⟩
  · rw [hf] at h
    rw [Body.andThen_of_none hf] at hstuck
    have hback : Advance l r w' w := by
      have hout := hg w' h.1
      unfold Forward Body.Post at hout
      split at hout
      · rw [← hstuck]
        exact hout.2
      · rw [← hstuck]
        exact hout.2
    obtain rfl := h.2.of_eq hback
    exact ⟨rfl, fun _ => ⟨h.1, hstuck⟩⟩
  · rw [Body.andThen_of_some hf] at hstuck
    exact ⟨hstuck, fun hnone => by cases hnone⟩

end Advance

/-! ## Every part of a call advances -/

section Blocks
-- a goal about a call would be evaluated down to the comparison of two numbers
attribute [local irreducible] Chunking.chunkSteps
variable {l : Link} {C : Conflict l} {w : World} {r : Role} {s : Side} {o : SyncSlot} {g : RegInfo} {es : List Event} {k : Nat}

theorem left_of_live (h : Live l w r) : left l w r =
    (if (w.regInfoPtr l r).offerReady then 0 else 1) + (if (w.side r).p2pPlan = .pending then 1 else 0) +
      ((l.transfer (w.side r).cur).steps - (w.side r).copied) + ((l.transfer (w.side r).cur).steps - (w.side r).transmitted) +
      (if (w.slotPtr l r).done then 0 else 1) + 1 := by
  have hne : (w.slotPtr l r).opHash ≠ freeHash := fun hfree => l.hash_ne_free _ _ (h.2.symm.trans hfree)
  simp only [left, h.1, Bool.false_eq_true, if_false, if_neg hne]

theorem left_act_peer : left l (w.act l r s o g es) r.peer = left l w r.peer := by
  simp only [left, World.act_side_peer, World.act_slotPtr_peer, World.act_regInfoPtr_peer]

theorem Turn.less (h : Turn C r k w) (hp : SamePhase l w r s o) (hs : s.halted = (w.side r).halted)
    (hlt : (if g.offerReady then 0 else 1) + (if s.p2pPlan = .pending then 1 else 0) + ((l.transfer k).steps - s.copied) +
        ((l.transfer k).steps - s.transmitted) <
      (if (w.regInfoPtr l r).offerReady then 0 else 1) + (if (w.side r).p2pPlan = .pending then 1 else 0) +
        ((l.transfer k).steps - (w.side r).copied) + ((l.transfer k).steps - (w.side r).transmitted)) :
    left l (w.act l r s o g es) r < left l w r ∧ Beside l r w (w.act l r s o g es) := by
  refine ⟨?_, World.act_side_peer, ?_, ?_, left_act_peer⟩
  rotate_left
  · rw [World.act_side_self, hp.cur]
  · rw [World.act_side_self, hs]
  rw [left_of_live h.live, left_of_live ((hp.live_iff r).2 h.live), World.act_side_self, World.act_slotPtr_self hp.cur,
    World.act_regInfoPtr_self hp.cur, hp.cur, hp.slotDone, h.cur]
  omega

theorem publishOffer_works (h : Turn C r k w) : Works l r w ((w.regInfoPtr l r).offerReady = true) (publishOffer l r w) := by
  unfold publishOffer
  split
  · rename_i hoffer
    rw [World.setRegInfoPtr_eq]
    refine .inr ⟨_, rfl, h.less (SamePhase.rfl' l w r) rfl ?_⟩
    rw [hoffer]
    exact Nat.add_lt_add_right (Nat.add_lt_add_right (Nat.add_lt_add_right zero_lt_one _) _) _
  · rename_i hoffer
    exact .inl ⟨by simpa using hoffer, rfl⟩

theorem resolvePlan_works (h : Turn C r k w) : Works l r w ((w.side r).p2pPlan ≠ .pending) (resolvePlan l r w) := by
  unfold resolvePlan
  by_cases hpending : (w.side r).p2pPlan = .pending
  · dsimp only
    rw [if_pos hpending, World.setSide_eq l, World.act_log]
    refine .inr ⟨_, rfl, h.less ⟨rfl, rfl, rfl, rfl, rfl⟩ rfl ?_⟩
    have hne := resolveTransferPlan_ne (w.offers l r).1.registered (w.offers l r).2.registered (w.offers l r).1.forceFifo
      (w.offers l r).2.forceFifo
    dsimp only
    rw [if_neg hne, if_pos hpending]
    omega
  · dsimp only
    rw [if_neg hpending]
    exact .inl ⟨hpending, rfl⟩

section Planned
variable (h : Planned C r k w)
include h

section

variable (hfit : (l.transfer k).Fits)
include hfit

theorem issueDirect_works (hlt : (w.side r).transmitted < (l.transfer k).steps) :
    Works l r w ((w.side r).copied ≠ 0) (issueDirect l r .prompt w) := by
  unfold issueDirect
  by_cases hcopied : (w.side r).copied = 0
  · rw [if_pos hcopied, h.toSteps hfit]
    refine .inr ⟨w.act l r { w.side r with
      copied := (l.transfer (w.side r).cur).steps, totalCopySize := (l.transfer (w.side r).cur).size,
      events := update (w.side r).events 0 ((w.side r).cur, 0) } (w.slotPtr l r) (w.regInfoPtr l r)
      [.direct r (w.side r).cur (w.peerRegInfoPtr l r).remoteAddr (l.transfer (w.side r).cur).size], ?_, ?_⟩
    · simp [Body.andThen, check, Answers.prompt, Result.accepted, World.log, World.setSide, World.act, World.slotPtr,
        World.regInfoPtr]
    · refine h.less ⟨rfl, rfl, rfl, rfl, rfl⟩ rfl ?_
      dsimp only
      rw [hcopied, h.cur]
      omega
  · rw [if_neg hcopied]
    exact .inl ⟨hcopied, rfl⟩

theorem queryDirect_works (hle : (w.side r).copied ≤ (l.transfer k).steps) :
    Works l r w ((w.side r).copied ≤ (w.side r).transmitted) (queryDirect l r .prompt w) := by
  unfold queryDirect
  by_cases hlt : (w.side r).transmitted < (w.side r).copied
  · rw [if_pos hlt, h.toSteps hfit]
    refine .inr ⟨w.act l r { w.side r with transmitted := (l.transfer (w.side r).cur).steps } (w.slotPtr l r)
      { w.regInfoPtr l r with copyDone := true } [.directDone r ((w.side r).events 0).1], ?_, ?_⟩
    · simp [query, Answers.prompt, World.log, World.setSide, World.act, World.slotPtr, World.setRegInfoPtr, World.setReg]
    · refine h.less ⟨rfl, rfl, rfl, rfl, rfl⟩ rfl ?_
      dsimp only
      rw [h.cur]
      omega
  · rw [if_neg hlt]
    exact .inl ⟨Nat.le_of_not_lt hlt, rfl⟩

theorem awaitDirect_works (hlt : (w.side r).transmitted < (l.transfer k).steps) :
    Works l r w ((w.peerRegInfoPtr l r).copyDone = false) (awaitDirect l r w) := by
  unfold awaitDirect
  by_cases hdone : (w.peerRegInfoPtr l r).copyDone = true
  · rw [if_pos hdone, h.toSteps hfit, World.setSide_eq l]
    refine .inr ⟨_, rfl, h.less ⟨rfl, rfl, rfl, rfl, rfl⟩ rfl ?_⟩
    dsimp only
    rw [h.cur]
    omega
  · rw [if_neg hdone]
    exact .inl ⟨by simpa using hdone, rfl⟩

theorem issueChunk_works :
    Works l r w (¬ ((w.side r).copied < (l.transfer k).steps ∧ (w.side r).copied < (w.side r).transmitted + l.chunks ∧
      (w.side r).copied < (w.peerSlotPtr l r).limit r)) (issueChunk l r .prompt w) := by
  have hcond : (((w.side r).copied : Int) < (l.transfer (w.side r).cur).chunkSteps ∧
      ((w.side r).copied : Int) - (w.side r).transmitted < l.chunks ∧ (w.side r).copied < (w.peerSlotPtr l r).limit r) ↔
      (w.side r).copied < (l.transfer k).steps ∧ (w.side r).copied < (w.side r).transmitted + l.chunks ∧
        (w.side r).copied < (w.peerSlotPtr l r).limit r := by
    rw [h.cur, hfit.chunkSteps]
    omega
  unfold issueChunk
  by_cases hnext : (w.side r).copied < (l.transfer k).steps ∧ (w.side r).copied < (w.side r).transmitted + l.chunks ∧
      (w.side r).copied < (w.peerSlotPtr l r).limit r
  · rw [if_pos (hcond.2 hnext)]
    refine .inr ⟨w.act l r { w.side r with
      copied := (w.side r).copied + 1
      totalCopySize := Chunking.addSize (w.side r).totalCopySize
        ((l.transfer (w.side r).cur).stepSize (w.side r).totalCopySize)
      events := update (w.side r).events ((w.side r).copied &&& l.sendStepMask) ((w.side r).cur, (w.side r).copied) }
      (w.slotPtr l r) (w.regInfoPtr l r) [.chunk r (w.side r).cur (w.side r).copied (w.side r).totalCopySize
        (toSize ((l.transfer (w.side r).cur).stepSize (w.side r).totalCopySize))
        ((l.transfer (w.side r).cur).chunkSize * ((w.side r).copied &&& l.sendStepMask))], ?_, ?_⟩
    · simp [Body.andThen, check, Answers.prompt, Result.accepted, World.log, World.setSide, World.act, World.slotPtr,
        World.regInfoPtr]
    · refine h.less ⟨rfl, rfl, rfl, rfl, rfl⟩ rfl ?_
      dsimp only
      omega
  · rw [if_neg (fun hc => hnext (hcond.1 hc))]
    exact .inl ⟨hnext, rfl⟩

end

theorem queryChunk_works (hle : (w.side r).copied ≤ (l.transfer k).steps) :
    Works l r w ((w.side r).copied ≤ (w.side r).transmitted) (queryChunk l r .prompt w) := by
  unfold queryChunk
  by_cases hlt : (w.side r).transmitted < (w.side r).copied
  · rw [if_pos hlt]
    refine .inr ⟨w.act l r { w.side r with transmitted := (w.side r).transmitted + 1 }
      ((w.slotPtr l r).advance ((w.side r).transmitted + 1) l.chunks r) (w.regInfoPtr l r)
      [.chunkDone r ((w.side r).events ((w.side r).transmitted &&& l.sendStepMask)).1
        ((w.side r).events ((w.side r).transmitted &&& l.sendStepMask)).2], ?_, ?_⟩
    · simp [query, Answers.prompt, World.log, World.setSide, World.act, World.regInfoPtr, World.setSlotPtr, World.setSlot]
    · refine h.less ?_ rfl ?_
      · cases r <;> exact ⟨rfl, rfl, rfl, rfl, rfl⟩
      · dsimp only
        omega
  · rw [if_neg hlt]
    exact .inl ⟨Nat.le_of_not_lt hlt, rfl⟩

end Planned

theorem tellPeer_works (h : Planned C r k w) (hall : (w.side r).transmitted = (l.transfer k).steps) :
    Works l r w ((w.slotPtr l r).done = true) (tellPeer l r w) := by
  cases hdone : (w.slotPtr l r).done with
  | false =>
    have hmet : Met l w r := h.inv.met h.live hdone h.entered
    have htold := (h.toldPeer hall hmet).1
    refine .inr ⟨w.toldPeer l r, tellPeer_eq hdone, ?_, rfl, rfl, rfl, ?_⟩
    · rw [left_of_live h.live, left_of_live htold.live, World.toldPeer_slotPtr_self, hdone]
      exact Nat.lt_succ_self _
    · unfold left
      rw [World.toldPeer_slotPtr_peer hmet]
      rfl
  | true =>
    refine .inl ⟨rfl, ?_⟩
    unfold tellPeer
    rw [if_neg (by simp [hdone])]

theorem retire_works (h : Turn C r k w) :
    Works l r w (¬ ((w.slotPtr l r).done = true ∧ (w.slotPtr l r).peerDone = true)) (retire l r w) := by
  unfold retire
  split
  · refine .inr ⟨w.retired l r, rfl, ?_, World.retired_side_peer, World.retired_cur r, ?_, ?_⟩
    · have hdone : ((w.retired l r).side r).done = true := by simp [World.retired]
      rw [left_of_live h.live, left, hdone, if_pos rfl]
      exact Nat.succ_pos _
    · simp [World.retired]
    · unfold left
      rw [World.retired_side_peer, World.retired_slotPtr_peer, World.regInfoPtr, World.retired_side_peer]
      rfl
  · rename_i hnot
    exact .inl ⟨hnot, rfl⟩

theorem resetSlot_works (h : Inv C w) (hawake : (w.side r).halted = false) (hbusy : (w.side r).done = false)
    (hclear : Clear C w r) : Works l r w ((w.slotPtr l r).opHash ≠ freeHash) (resetSlot l r w) := by
  by_cases hfree : (w.slotPtr l r).opHash = freeHash
  · have hopened := h.opened hawake hbusy hfree hclear
    refine .inr ⟨w.opened l r, resetSlot_eq hfree, ?_, World.act_side_peer, hopened.cur, ?_, left_act_peer⟩
    rotate_left
    · rw [hawake, hopened.awake]
    rw [left_of_live hopened.live, hopened.cur]
    have hleft : left l w r = 2 * (l.transfer (w.side r).cur).steps + 5 := by
      simp only [left, hbusy, Bool.false_eq_true, if_false, if_pos hfree]
    split_ifs <;> omega
  · refine .inl ⟨hfree, ?_⟩
    unfold resetSlot
    rw [if_neg hfree]

/-! ## A call -/

variable {move : Body Result World}

section

variable (h : Planned C r k w)
include h

theorem orFinish_forward (hfit : (l.transfer k).Fits) {Q : World → Prop}
    (hmove : (w.side r).transmitted < (l.transfer k).steps → Forward l r w Q (move w)) :
    Forward l r w (fun _ => True) (orFinish l r move w) := by
  rw [orFinish_eq h hfit]
  split
  · rename_i hlt
    exact (hmove hlt).mono (fun _ hw => ⟨trivial, hw.2⟩) fun _ _ hw => hw
  · rename_i hge
    have hall := h.all (Nat.le_of_not_lt hge)
    refine Forward.andThen ((tellPeer_works h hall).forward (tellPeer_spec h hall)) fun w' hw' => ?_
    exact (retire_works hw'.1).forward (R := fun _ _ => True) (by unfold Body.Post; split <;> trivial)

theorem Planned.copied_le : (w.side r).copied ≤ (l.transfer k).steps := by
  have hcur : (w.side r).cur = k := h.cur
  cases hc : copier (l.planOf k) with
  | some c =>
    rcases (h.head.direct c (by rw [hcur, hc])).copied with hzero | hall
    · rw [hzero]
      exact Nat.zero_le _
    · rw [hcur] at hall
      exact hall.le
  | none =>
    have hsteps := (h.head.chunked (by rw [hcur, hc])).steps
    rwa [hcur] at hsteps

theorem chunks_forward (hfit : (l.transfer k).Fits) (hc : copier (l.planOf k) = none)
    (hlt : (w.side r).transmitted < (l.transfer k).steps) :
    Forward l r w (Planned C r k) (Body.andThen (issueChunk l r .prompt) (queryChunk l r .prompt) w) :=
  ((issueChunk_works h hfit).forward (issueChunk_spec h hfit .prompt hc hlt)).andThen fun _ hw =>
    (queryChunk_works hw hw.copied_le).forward (queryChunk_spec hw .prompt hc)

theorem direct_forward (hfit : (l.transfer k).Fits) (hc : copier (l.planOf k) = some r)
    (hlt : (w.side r).transmitted < (l.transfer k).steps) :
    Forward l r w (Planned C r k) (Body.andThen (issueDirect l r .prompt) (queryDirect l r .prompt) w) :=
  ((issueDirect_works h hfit hlt).forward (issueDirect_spec h hfit .prompt hc hlt)).andThen fun _ hw =>
    (queryDirect_works hw hfit hw.copied_le).forward (queryDirect_spec hw hfit .prompt hc)

theorem transferData_forward (hfit : (l.transfer k).Fits) : Forward l r w (fun _ => True) (transferData l r .prompt w) := by
  unfold transferData
  rw [h.plan]
  cases hc : copier (l.planOf k) with
  | none => exact orFinish_forward h hfit fun hlt => chunks_forward h hfit hc hlt
  | some c =>
    dsimp only
    by_cases hr : r = c
    · subst hr
      rw [if_pos rfl]
      exact orFinish_forward h hfit fun hlt => direct_forward h hfit hc hlt
    · rw [if_neg hr]
      have hpeer : c = r.peer := (Role.eq_or_eq_peer r c).resolve_left (Ne.symm hr)
      exact orFinish_forward h hfit fun hlt => (awaitDirect_works h hfit hlt).forward (awaitDirect_spec h hfit (by rw [hc, hpeer]) hlt)

end

section

variable (h : Turn C r k w)
include h

theorem peerSlot_forward : Forward l r w (fun w => Turn C r k w ∧ Entered l r w) (peerSlot l r w) := by
  have hspec := peerSlot_spec h
  unfold peerSlot at *
  by_cases hc : (w.peerSlotPtr l r).opHash ≠ l.hash r.peer (w.side r).cur ∧ (w.slotPtr l r).peerDone = false
  · rw [if_pos hc]
    exact ⟨rfl, .same l r w⟩
  · rw [if_neg hc] at *
    exact ⟨hspec, .same l r w⟩

theorem awaitOffer_forward (he : Entered l r w) (hown : (w.regInfoPtr l r).offerReady = true) :
    Forward l r w (fun w => Turn C r k w ∧ Entered l r w ∧ (w.regInfoPtr l r).offerReady = true ∧
      (w.peerRegInfoPtr l r).offerReady = true) (awaitOffer l r w) := by
  have hspec := awaitOffer_spec h he hown
  unfold awaitOffer at *
  by_cases hc : (w.peerRegInfoPtr l r).offerReady = false
  · rw [if_pos hc]
    exact ⟨rfl, .same l r w⟩
  · rw [if_neg hc] at *
    exact ⟨hspec, .same l r w⟩

theorem plan_forward (hfit : (l.transfer k).Fits) (he : Entered l r w) (hown : (w.regInfoPtr l r).offerReady = true)
    (hpeer : (w.peerRegInfoPtr l r).offerReady = true) :
    Forward l r w (fun _ => True) (Body.andThen (resolvePlan l r) (transferData l r .prompt) w) :=
  ((resolvePlan_works h).forward (resolvePlan_spec h he hown hpeer)).andThen fun _ hw => transferData_forward hw hfit

theorem await_forward (hfit : (l.transfer k).Fits) (he : Entered l r w) (hown : (w.regInfoPtr l r).offerReady = true) :
    Forward l r w (fun _ => True)
      (Body.andThen (awaitOffer l r) (Body.andThen (resolvePlan l r) (transferData l r .prompt)) w) :=
  (awaitOffer_forward h he hown).andThen fun _ hw => plan_forward hw.1 hfit hw.2.1 hw.2.2.1 hw.2.2.2

theorem publish_forward (hfit : (l.transfer k).Fits) (he : Entered l r w) :
    Forward l r w (fun _ => True) (Body.andThen (publishOffer l r)
      (Body.andThen (awaitOffer l r) (Body.andThen (resolvePlan l r) (transferData l r .prompt))) w) :=
  ((publishOffer_works h).forward (publishOffer_spec h he)).andThen fun _ hw => await_forward hw.1 hfit hw.2.1 hw.2.2

theorem handshake_forward (hfit : (l.transfer k).Fits) : Forward l r w (fun _ => True) (handshake l r .prompt w) :=
  (peerSlot_forward h).andThen fun _ hw => publish_forward hw.1 hfit hw.2

end

theorem ownSlot_forward (h : Inv C w) (hawake : (w.side r).halted = false) (hbusy : (w.side r).done = false) :
    Forward l r w (Turn C r (w.side r).cur) (ownSlot l r w) := by
  have hspec := ownSlot_spec h hawake hbusy
  unfold ownSlot at *
  by_cases hc : (w.slotPtr l r).opHash ≠ l.hash r (w.side r).cur
  · rw [if_pos hc]
    exact ⟨rfl, .same l r w⟩
  · rw [if_neg hc] at *
    exact ⟨hspec, .same l r w⟩

/-- What holds of a side before its slot is known to be its own. -/
structure Begun (C : Conflict l) (r : Role) (k : Nat) (w : World) : Prop where
  inv : Inv C w
  awake : (w.side r).halted = false
  busy : (w.side r).done = false
  cur : (w.side r).cur = k

theorem resetSlot_forward (h : Begun C r k w) (hclear : Clear C w r) : Forward l r w (Begun C r k) (resetSlot l r w) := by
  have hworks := resetSlot_works h.inv h.awake h.busy hclear
  refine hworks.forward (R := fun _ _ => True) ?_
  by_cases hfree : (w.slotPtr l r).opHash = freeHash
  · have hopened := h.inv.opened h.awake h.busy hfree hclear
    rw [resetSlot_eq hfree]
    exact ⟨hopened.inv, hopened.awake, hopened.live.1, hopened.cur.trans h.cur⟩
  · unfold resetSlot
    rw [if_neg hfree]
    exact h

theorem begun_forward (h : Begun C r k w) (hfit : (l.transfer k).Fits) :
    Forward l r w (fun _ => True) (Body.andThen (ownSlot l r) (handshake l r .prompt) w) := by
  refine (ownSlot_forward h.inv h.awake h.busy).andThen fun w' hw => ?_
  rw [h.cur] at hw
  exact handshake_forward hw hfit

theorem progress_forward (h : Begun C r k w) (hfit : (l.transfer k).Fits) (hclear : Clear C w r) :
    (progress l r .prompt w).1 = .success ∧ Advance l r w (progress l r .prompt w).2 := by
  refine Body.Post.call (Q := fun w' => True ∧ Advance l r w w')
    (R := fun (result : Result) w' => result = .success ∧ Advance l r w w') ?_ fun w' hw => ⟨rfl, hw.2⟩
  rw [if_neg (by simp [h.busy]), if_neg (by simp [Answers.prompt])]
  exact (resetSlot_forward h hclear).andThen fun w' hw => begun_forward hw hfit

/-! ## Two sides that cannot advance -/

theorem Inv.live_of_ne (h : Inv C w) (hne : (w.slotPtr l r).opHash ≠ freeHash) : Live l w r :=
  ((h.free r _).resolve_left hne).1

theorem Begun.stuck (h : Begun C r k w) (hfit : (l.transfer k).Fits) (hclear : Clear C w r)
    (hstuck : (progress l r .prompt w).2 = w) : Turn C r k w ∧ (handshake l r .prompt w).2 = w := by
  have hbody : (Body.andThen (resetSlot l r) (Body.andThen (ownSlot l r) (handshake l r .prompt)) w).2 = w := by
    unfold progress Body.call at hstuck
    dsimp only at hstuck
    rwa [if_neg (by simp [h.busy]), if_neg (by simp [Answers.prompt])] at hstuck
  obtain ⟨hreset, hrest⟩ := (resetSlot_forward h hclear).stuck (fun w' hw => begun_forward hw hfit) hbody
  obtain ⟨hne, heq⟩ := (resetSlot_works h.inv h.awake h.busy hclear).stuck hreset
  have hlive := h.inv.live_of_ne hne
  have hown : ownSlot l r w = (none, w) := by
    unfold ownSlot
    rw [if_neg (fun hne => hne hlive.2)]
  have hrest := (hrest (by rw [heq])).2
  rw [Body.andThen_of_none hown] at hrest
  exact ⟨⟨h.inv, hlive, h.awake, h.cur⟩, hrest⟩

theorem Turn.stuck (h : Turn C r k w) (hfit : (l.transfer k).Fits) (hopen : peerSlot l r w = (none, w))
    (hstuck : (handshake l r .prompt w).2 = w) : Entered l r w ∧ (w.regInfoPtr l r).offerReady = true ∧
      (Body.andThen (awaitOffer l r) (Body.andThen (resolvePlan l r) (transferData l r .prompt)) w).2 = w := by
  have hentered : Entered l r w := by
    have hspec := peerSlot_spec h
    rw [hopen] at hspec
    exact hspec.2
  unfold handshake at hstuck
  rw [Body.andThen_of_none hopen] at hstuck
  obtain ⟨hpublish, hrest⟩ := ((publishOffer_works h).forward (publishOffer_spec h hentered)).stuck
    (fun w' hw => await_forward hw.1 hfit hw.2.1 hw.2.2) hstuck
  obtain ⟨hready, heq⟩ := (publishOffer_works h).stuck hpublish
  exact ⟨hentered, hready, (hrest (by rw [heq])).2⟩

theorem Turn.stuck_plan (h : Turn C r k w) (hfit : (l.transfer k).Fits) (he : Entered l r w)
    (hown : (w.regInfoPtr l r).offerReady = true) (hpeer : (w.peerRegInfoPtr l r).offerReady = true)
    (hstuck : (Body.andThen (awaitOffer l r) (Body.andThen (resolvePlan l r) (transferData l r .prompt)) w).2 = w) :
    Planned C r k w ∧ (transferData l r .prompt w).2 = w := by
  have hawait : awaitOffer l r w = (none, w) := by
    unfold awaitOffer
    rw [if_neg (by simp [hpeer])]
  rw [Body.andThen_of_none hawait] at hstuck
  obtain ⟨hresolve, hrest⟩ := ((resolvePlan_works h).forward (resolvePlan_spec h he hown hpeer)).stuck
    (fun w' hw => transferData_forward hw hfit) hstuck
  obtain ⟨-, heq⟩ := (resolvePlan_works h).stuck hresolve
  exact hrest (by rw [heq])

/-- What a side waits for when it has a plan and cannot advance. -/
structure Waits (l : Link) (r : Role) (k : Nat) (w : World) : Prop where
  fifo : copier (l.planOf k) = none → (w.side r).transmitted < (l.transfer k).steps →
    (w.side r).copied = (w.side r).transmitted ∧ (w.peerSlotPtr l r).limit r ≤ (w.side r).copied
  copies : copier (l.planOf k) = some r → (w.side r).transmitted = (l.transfer k).steps
  waiter : copier (l.planOf k) = some r.peer → (w.side r).transmitted < (l.transfer k).steps →
    (w.peerRegInfoPtr l r).copyDone = false
  done : (w.side r).transmitted = (l.transfer k).steps → (w.slotPtr l r).done = true ∧ (w.slotPtr l r).peerDone = false

section

variable (h : Planned C r k w) (hfit : (l.transfer k).Fits)
include h hfit

theorem Planned.stuck_finish (hall : (w.side r).transmitted = (l.transfer k).steps) (hstuck : (orFinish l r move w).2 = w) :
    (w.slotPtr l r).done = true ∧ (w.slotPtr l r).peerDone = false := by
  rw [orFinish_eq h hfit, if_neg (by omega)] at hstuck
  obtain ⟨htell, hrest⟩ := ((tellPeer_works h hall).forward (tellPeer_spec h hall)).stuck
    (fun w' hw => (retire_works hw.1).forward (Q := fun _ => True) (R := fun _ _ => True) (by unfold Body.Post; split <;> trivial)) hstuck
  obtain ⟨hdone, heq⟩ := (tellPeer_works h hall).stuck htell
  have hnot := ((retire_works h.toTurn).stuck (hrest (by rw [heq])).2).1
  exact ⟨hdone, by simpa [hdone] using hnot⟩

theorem Planned.waits_fifo (hstuck : (transferData l r .prompt w).2 = w) (hc : copier (l.planOf k) = none) : Waits l r k w := by
  unfold transferData at hstuck
  rw [h.plan, hc] at hstuck
  dsimp only at hstuck
  refine ⟨fun _ hlt => ?_, fun hsome => ?_, fun hsome => ?_, fun hall => h.stuck_finish hfit hall hstuck⟩
  · have hchunks := h.head.chunked (by rw [h.cur, hc])
    rw [orFinish_eq h hfit, if_pos hlt] at hstuck
    obtain ⟨hissue, hrest⟩ := ((issueChunk_works h hfit).forward (issueChunk_spec h hfit .prompt hc hlt)).stuck
      (fun w' hw => (queryChunk_works hw hw.copied_le).forward (queryChunk_spec hw .prompt hc)) hstuck
    obtain ⟨hnext, heq⟩ := (issueChunk_works h hfit).stuck hissue
    have hquery := ((queryChunk_works h h.copied_le).stuck (hrest (by rw [heq])).2).1
    have hle := hchunks.le
    have hpos := l.chunks_pos
    refine ⟨le_antisymm hquery hle, Nat.le_of_not_lt fun hlimit => hnext ⟨?_, ?_, hlimit⟩⟩ <;> omega
  · rw [hc] at hsome
    cases hsome
  · rw [hc] at hsome
    cases hsome

theorem Planned.waits_copy (hstuck : (transferData l r .prompt w).2 = w) (hc : copier (l.planOf k) = some r) :
    Waits l r k w := by
  unfold transferData at hstuck
  rw [h.plan, hc] at hstuck
  dsimp only at hstuck
  rw [if_pos rfl] at hstuck
  have hall : (w.side r).transmitted = (l.transfer k).steps := by
    refine h.all (Nat.le_of_not_lt fun hlt => ?_)
    rw [orFinish_eq h hfit, if_pos hlt] at hstuck
    obtain ⟨hissue, hrest⟩ := ((issueDirect_works h hfit hlt).forward (issueDirect_spec h hfit .prompt hc hlt)).stuck
      (fun w' hw => (queryDirect_works hw hfit hw.copied_le).forward (queryDirect_spec hw hfit .prompt hc)) hstuck
    obtain ⟨hne, heq⟩ := (issueDirect_works h hfit hlt).stuck hissue
    have hquery := ((queryDirect_works h hfit h.copied_le).stuck (hrest (by rw [heq])).2).1
    have hcopied := (h.head.direct r (by rw [h.cur, hc])).copied.resolve_left hne
    rw [h.cur] at hcopied
    omega
  refine ⟨fun hnone => ?_, fun _ => hall, fun hpeer => ?_, fun hall => h.stuck_finish hfit hall hstuck⟩
  · rw [hc] at hnone
    cases hnone
  · rw [hc] at hpeer
    exact absurd (some.inj hpeer).symm r.peer_ne

theorem Planned.waits_await (hstuck : (transferData l r .prompt w).2 = w) (hc : copier (l.planOf k) = some r.peer) :
    Waits l r k w := by
  unfold transferData at hstuck
  rw [h.plan, hc] at hstuck
  dsimp only at hstuck
  rw [if_neg r.peer_ne.symm] at hstuck
  refine ⟨fun hnone => ?_, fun hown => ?_, fun _ hlt => ?_, fun hall => h.stuck_finish hfit hall hstuck⟩
  · rw [hc] at hnone
    cases hnone
  · rw [hc] at hown
    exact absurd (some.inj hown) r.peer_ne
  · rw [orFinish_eq h hfit, if_pos hlt] at hstuck
    exact ((awaitDirect_works h hfit hlt).stuck hstuck).1

theorem Planned.waits (hstuck : (transferData l r .prompt w).2 = w) : Waits l r k w := by
  cases hc : copier (l.planOf k) with
  | none => exact h.waits_fifo hfit hstuck hc
  | some c =>
    rcases Role.eq_or_eq_peer r c with rfl | rfl
    · exact h.waits_copy hfit hstuck hc
    · exact h.waits_await hfit hstuck hc

end

theorem Clear.of_le (hle : (w.side r).cur ≤ (w.side r.peer).cur) : Clear C w r := fun _ hcur hnot =>
  absurd (.inl (by omega)) hnot

theorem Inv.advances (h : Inv C w) (hfit : (l.transfer k).Fits) (hbegun : ∀ x, Begun C x k w) :
    ∃ x, (progress l x .prompt w).2 ≠ w := by
  by_contra hnone
  push Not at hnone
  have hcur : ∀ x, (w.side x).cur = k := fun x => (hbegun x).cur
  have hturn : ∀ x, Turn C x k w ∧ (handshake l x .prompt w).2 = w := fun x =>
    (hbegun x).stuck hfit (.of_le (by rw [hcur, hcur])) (hnone x)
  have hmet : ∀ x, Met l w x := fun x => ⟨by rw [hcur, hcur], (hturn x.peer).1.live⟩
  have hoffer : ∀ x, Entered l x w ∧ (w.regInfoPtr l x).offerReady = true ∧
      (Body.andThen (awaitOffer l x) (Body.andThen (resolvePlan l x) (transferData l x .prompt)) w).2 = w := by
    intro x
    have hopen : peerSlot l x w = (none, w) := by
      have hhash : (w.peerSlotPtr l x).opHash = l.hash x.peer (w.side x).cur := by
        rw [(hmet x).peerSlotPtr, (hmet x).2.2, (hmet x).1]
      unfold peerSlot
      rw [if_neg (by simp [hhash])]
    exact (hturn x).1.stuck hfit hopen (hturn x).2
  have hwaits : ∀ x, Planned C x k w ∧ Waits l x k w := by
    intro x
    have hpeer : (w.peerRegInfoPtr l x).offerReady = true := by
      rw [(hmet x).peerRegInfoPtr]
      exact (hoffer x.peer).2.1
    obtain ⟨hplanned, hstuck⟩ := (hturn x).1.stuck_plan hfit (hoffer x).1 (hoffer x).2.1 hpeer (hoffer x).2.2
    exact ⟨hplanned, hplanned.waits hfit hstuck⟩
  -- both sides have made all their copies, so both slots are done, and each side is told so
  have hend : ¬ ∀ x, (w.side x).transmitted = (l.transfer k).steps := by
    intro hall
    obtain ⟨hdone, -⟩ := (hwaits .send).2.done (hall .send)
    obtain ⟨-, htold⟩ := (hwaits .recv).2.done (hall .recv)
    have hfin := (h.told .recv (hturn .recv).1.live).2
    rw [htold, hcur] at hfin
    have := hfin (by
      have := ((hturn .send).1.live.fin_iff).2 hdone
      rwa [hcur] at this)
    cases this
  refine hend ?_
  cases hc : copier (l.planOf k) with
  | some c =>
    have hcopied := (hwaits c).2.copies hc
    have hpeer : (w.side c.peer).transmitted = (l.transfer k).steps := by
      refine (hwaits c.peer).1.all (Nat.le_of_not_lt fun hlt => ?_)
      have hwait := (hwaits c.peer).2.waiter (by rw [Role.peer_peer, hc]) hlt
      have hflag := ((hturn c).1.head.direct c (by rw [hcur, hc])).flag (by omega) rfl
      rw [(hmet c.peer).peerRegInfoPtr, Role.peer_peer, hflag] at hwait
      cases hwait
    intro x
    rcases Role.eq_or_eq_peer c x with rfl | rfl
    · exact hcopied
    · exact hpeer
  | none =>
    have hsend := (hturn .send).1.head.chunked (by rw [hcur, hc])
    have hrecv := (hturn .recv).1.head.chunked (by rw [hcur, hc])
    have hhead : (w.peerSlotPtr l .recv).sendHead = (w.side .send).transmitted := by
      rw [(hmet .recv).peerSlotPtr]
      exact (congrArg SyncSlot.sendHead hsend.slot).symm
    have htail : (w.peerSlotPtr l .send).recvTail = (w.side .recv).transmitted + l.chunks := by
      rw [(hmet .send).peerSlotPtr]
      exact (congrArg SyncSlot.recvTail hrecv.slot).symm
    have hwaitsend := (hwaits .send).2.fifo hc
    have hwaitrecv := (hwaits .recv).2.fifo hc
    simp only [SyncSlot.limit, hhead, htail] at hwaitsend hwaitrecv
    have hpos := l.chunks_pos
    have hlesend := (hwaits .send).1.copied_le
    have hle := hsend.le
    have hlerecv := (hwaits .recv).1.copied_le
    have hle' := hrecv.le
    intro x
    cases x <;> omega

def Conflict.slot (l : Link) : Conflict l := ⟨fun r k => l.idx r (k + 1) = l.idx r k, fun _ _ => l.idx_of_hash⟩

theorem Begun.follows (h : Begun (.slot l) r k w) (hfit : (l.transfer k).Fits) (hover : Over w r.peer k) :
    (progress l r .prompt w).2 ≠ w := by
  intro hstuck
  have hcur : (w.side r).cur = k := h.cur
  have hle : (w.side r).cur ≤ (w.side r.peer).cur := by
    unfold Over at hover
    omega
  obtain ⟨hturn, hstuck⟩ := h.stuck hfit (.of_le hle) hstuck
  have hnot : ¬ Over w r k := by
    rw [← hcur]
    exact hturn.live.not_over
  have hpeer : (w.slotPtr l r).peerDone = true := by
    refine (h.inv.told r hturn.live).2 (.of_over ?_)
    rwa [hcur]
  have hopen : peerSlot l r w = (none, w) := by
    unfold peerSlot
    rw [if_neg (by simp [hpeer])]
  have hready : (w.peerRegInfoPtr l r).offerReady = true := by
    have hkept := h.inv.kept r.peer k hover (by rwa [Role.peer_peer])
    rw [World.peerRegInfoPtr, hcur]
    refine hkept.resolve_left ?_
    rintro ⟨hlive, hidx⟩
    have hlt := hlive.lt_of_over hover
    have hnext : (w.side r.peer).cur = k + 1 := by
      by_contra hne
      have hfin := h.inv.along r.peer (k + 1) (.inl (by omega))
      rw [Role.peer_peer] at hfin
      have := hfin.le
      omega
    refine h.inv.distinct r.peer k hnext hlive (by rwa [Role.peer_peer]) ?_
    change l.idx r.peer (k + 1) = l.idx r.peer k
    rw [hidx, hnext]
  obtain ⟨hentered, hown, hrest⟩ := hturn.stuck hfit hopen hstuck
  obtain ⟨hplanned, hstuck⟩ := hturn.stuck_plan hfit hentered hown hready hrest
  have hdone : (w.slotPtr l r).done = true := by
    have hfin := h.inv.along r.peer k hover
    rw [Role.peer_peer, ← hcur] at hfin
    exact hturn.live.fin_iff.1 hfin
  have hall := hturn.head.finished hdone
  rw [hcur] at hall
  have htold := ((hplanned.waits hfit hstuck).done hall).2
  rw [hpeer] at htold
  cases htold

/-! ## Runs that complete the operations -/

instance (w : World) (r : Role) (k : Nat) : Decidable (Over w r k) := inferInstanceAs (Decidable (_ ∨ _))

/-- What a side has left to do of operation `k` when it is not past it. -/
def remaining (l : Link) (k : Nat) (w : World) (r : Role) : Nat := if Over w r k then 0 else left l w r

/-- Both queues are in progress. -/
structure Runs {l : Link} (C : Conflict l) (w : World) : Prop where
  inv : Inv C w
  awake : ∀ r, (w.side r).halted = false

theorem Begun.not_over (h : Begun C r k w) : ¬ Over w r k := by
  have hbusy := h.busy
  have hcur := h.cur
  simp [Over, hbusy, hcur]

theorem Begun.remaining_pos (h : Begun C r k w) : 0 < remaining l k w r := by
  have hbusy := h.busy
  rw [remaining, if_neg h.not_over]
  simp only [left, hbusy, Bool.false_eq_true, if_false]
  split_ifs <;> omega

theorem remaining_congr {w' : World} (hside : w'.side r = w.side r) (hleft : left l w' r = left l w r) :
    remaining l k w' r = remaining l k w r := by
  have hover : Over w' r k ↔ Over w r k := by
    unfold Over
    rw [hside]
  simp only [remaining, hover, hleft]

theorem afterCall_prompt (w' : World) : afterCall r .prompt (.success, w') =
    if (w'.side r).done then w'.setSide r ((w'.side r).start ((w'.side r).cur + 1)) else w' := by
  simp [afterCall, Answers.prompt, Result.accepted]

theorem left_setSide_peer : left l (w.setSide r s) r.peer = left l w r.peer := by
  have hpeer : (w.setSide r s).side r.peer = w.side r.peer := update_of_ne r.peer_ne _ _
  rw [left, left, World.slotPtr, World.regInfoPtr, hpeer]
  rfl

theorem step_prompt (hawake : (w.side r).halted = false) (hk : (w.side r).cur < l.count) :
    step l w (r, .prompt) = some (afterCall r .prompt (progress l r .prompt w)) := by
  unfold step
  rw [if_neg (by simp [hawake, hk]), progressProxyOp_eq]

theorem Begun.call (h : Begun C r k w) (hawake : ∀ r, (w.side r).halted = false) (hk : k < l.count)
    (hfit : ∀ k < l.count, (l.transfer k).Fits) (hclear : Clear C w r) (hmoves : (progress l r .prompt w).2 ≠ w) :
    ∃ w', step l w (r, .prompt) = some w' ∧ Runs C w' ∧ w'.side r.peer = w.side r.peer ∧
      (Over w' r k ∨ (w'.side r).cur = k) ∧ remaining l k w' r < remaining l k w r ∧
      remaining l k w' r.peer = remaining l k w r.peer := by
  have hstep := step_prompt h.awake (by rwa [h.cur])
  obtain ⟨hok, hadvance⟩ := progress_forward h (hfit k hk) hclear
  have hlt := hadvance.own.resolve_left hmoves
  have hpos := h.remaining_pos
  have hleft : remaining l k w r = left l w r := by rw [remaining, if_neg h.not_over]
  have hout : progress l r .prompt w = (.success, (progress l r .prompt w).2) := by rw [← hok]
  rw [hout, afterCall_prompt] at hstep
  generalize hw' : (progress l r .prompt w).2 = w' at *
  have hinv := h.inv.step hstep hfit fun _ _ => hclear
  have hcur : (w'.side r).cur = k := hadvance.beside.cur.trans h.cur
  refine ⟨_, hstep, ?_⟩
  split at hinv
  · rename_i hdone
    rw [if_pos hdone]
    have hself : (w'.setSide r ((w'.side r).start ((w'.side r).cur + 1))).side r = (w'.side r).start ((w'.side r).cur + 1) :=
      update_self _ _ _
    have hpeer : (w'.setSide r ((w'.side r).start ((w'.side r).cur + 1))).side r.peer = w.side r.peer :=
      (update_of_ne r.peer_ne _ _).trans hadvance.beside.peer
    have hover : Over (w'.setSide r ((w'.side r).start ((w'.side r).cur + 1))) r k := by
      refine .inl ?_
      rw [hself, hcur]
      exact Nat.lt_succ_self k
    refine ⟨⟨hinv, fun x => ?_⟩, hpeer, .inl hover, ?_, ?_⟩
    · rcases Role.eq_or_eq_peer r x with rfl | rfl
      · rw [hself]
        exact hadvance.beside.halted.trans (hawake _)
      · rw [hpeer]
        exact hawake _
    · rwa [remaining, if_pos hover]
    · exact remaining_congr hpeer (left_setSide_peer.trans hadvance.beside.left)
  · rename_i hbusy
    rw [if_neg hbusy]
    refine ⟨⟨hinv, fun x => ?_⟩, hadvance.beside.peer, .inr hcur, ?_, ?_⟩
    · rcases Role.eq_or_eq_peer r x with rfl | rfl
      · exact hadvance.beside.halted.trans (hawake _)
      · rw [hadvance.beside.peer]
        exact hawake _
    · rw [hleft, remaining, if_neg (by simp [Over, hcur, hbusy])]
      exact hlt
    · exact remaining_congr hadvance.beside.peer hadvance.beside.left

theorem Runs.complete (h : Runs (.slot l) w) (hk : k < l.count) (hfit : ∀ k < l.count, (l.transfer k).Fits)
    (hreached : ∀ r, Over w r k ∨ (w.side r).cur = k) :
    ∃ calls w', exec (step l) w calls = some w' ∧ Runs (.slot l) w' ∧ ∀ r, Over w' r k := by
  induction hn : remaining l k w .send + remaining l k w .recv using Nat.strong_induction_on generalizing w with
  | _ n ih =>
  by_cases hall : ∀ r, Over w r k
  · exact ⟨[], w, rfl, h, hall⟩
  push Not at hall
  obtain ⟨r, hnot⟩ := hall
  have hbegun : ∀ x, ¬ Over w x k → Begun (.slot l) x k w := by
    intro x hx
    have hcur := (hreached x).resolve_left hx
    refine ⟨h.inv, h.awake x, ?_, hcur⟩
    by_contra hdone
    exact hx (.inr ⟨hcur.symm, by simpa using hdone⟩)
  -- the side that is called next
  obtain ⟨x, hx, hmoves⟩ : ∃ x, ¬ Over w x k ∧ (progress l x .prompt w).2 ≠ w := by
    by_cases hover : Over w r.peer k
    · exact ⟨r, hnot, (hbegun r hnot).follows (hfit k hk) hover⟩
    · have hboth : ∀ x, ¬ Over w x k := by
        intro x
        rcases Role.eq_or_eq_peer r x with rfl | rfl
        · exact hnot
        · exact hover
      obtain ⟨x, hx⟩ := h.inv.advances (hfit k hk) fun x => hbegun x (hboth x)
      exact ⟨x, hboth x, hx⟩
  have hle : (w.side x).cur ≤ (w.side x.peer).cur := by
    rw [(hbegun x hx).cur]
    rcases hreached x.peer with hover | hcur
    · unfold Over at hover
      omega
    · exact hcur.ge
  obtain ⟨w', hstep, hruns, hpeer, hreached', hlt, hsame⟩ := (hbegun x hx).call h.awake hk hfit (.of_le hle) hmoves
  have hdecreases : remaining l k w' .send + remaining l k w' .recv < n := by
    cases x <;> simp only [Role.peer] at hsame <;> omega
  obtain ⟨calls, w'', hexec, hdone⟩ := ih _ hdecreases hruns (fun y => by
    rcases Role.eq_or_eq_peer x y with rfl | rfl
    · exact hreached'
    · have hy := hreached x.peer
      unfold Over at *
      rwa [hpeer]) rfl
  exact ⟨(x, .prompt) :: calls, w'', by rw [exec, hstep]; exact hexec, hdone⟩

theorem Runs.pass (h : Runs C w) (hk : k < l.count) (r : Role) (hover : Over w r k) :
    ∃ calls w', exec (step l) w calls = some w' ∧ Runs C w' ∧ k < (w'.side r).cur ∧ w'.side r.peer = w.side r.peer := by
  rcases hover with hlt | ⟨hcur, hdone⟩
  · exact ⟨[], w, rfl, h, hlt, rfl⟩
  · have hcall : progress l r .prompt w = (.success, w) := by
      unfold progress Body.call
      dsimp only
      rw [if_pos hdone]
      rfl
    have hstep := step_prompt (h.awake r) (by rwa [← hcur])
    rw [hcall, afterCall_prompt, if_pos hdone] at hstep
    have hself : (w.setSide r ((w.side r).start ((w.side r).cur + 1))).side r = (w.side r).start ((w.side r).cur + 1) :=
      update_self _ _ _
    have hpeer : (w.setSide r ((w.side r).start ((w.side r).cur + 1))).side r.peer = w.side r.peer :=
      update_of_ne r.peer_ne _ _
    refine ⟨[(r, .prompt)], _, by rw [exec_singleton]; exact hstep, ⟨h.inv.next hdone, fun x => ?_⟩, ?_, hpeer⟩
    · rcases Role.eq_or_eq_peer r x with rfl | rfl
      · rw [hself]
        exact h.awake _
      · rw [hpeer]
        exact h.awake _
    · rw [hself, hcur]
      exact Nat.lt_succ_self _

theorem Runs.completeAll (h : Runs (.slot l) w) (hfit : ∀ k < l.count, (l.transfer k).Fits) (hk : k < l.count) :
    ∃ calls w', exec (step l) w calls = some w' ∧ Runs (.slot l) w' ∧ ∀ r, Over w' r k := by
  induction k with
  | zero =>
    refine h.complete hk hfit fun r => ?_
    rcases Nat.eq_zero_or_pos (w.side r).cur with hzero | hpos
    · exact .inr hzero
    · exact .inl (.inl hpos)
  | succ k ih =>
    obtain ⟨calls, w₁, hexec, h₁, hover⟩ := ih (Nat.lt_of_succ_lt hk)
    obtain ⟨calls₁, w₂, hexec₁, h₂, hsend, hpeer⟩ := h₁.pass (Nat.lt_of_succ_lt hk) .send (hover .send)
    have hover₂ : Over w₂ .recv k := by
      have := hover .recv
      unfold Over at *
      rwa [show w₂.side .recv = w₁.side .recv from hpeer]
    obtain ⟨calls₂, w₃, hexec₂, h₃, hrecv, hpeer'⟩ := h₂.pass (Nat.lt_of_succ_lt hk) .recv hover₂
    have hsend' : k < (w₃.side .send).cur := by rwa [show w₃.side .send = w₂.side .send from hpeer']
    obtain ⟨calls₃, w₄, hexec₃, h₄, hdone⟩ := h₃.complete hk hfit fun r => by
      have hlt : k < (w₃.side r).cur := by
        cases r
        · exact hsend'
        · exact hrecv
      unfold Over
      omega
    refine ⟨calls ++ (calls₁ ++ (calls₂ ++ calls₃)), w₄, ?_, h₄, hdone⟩
    simp only [exec_append, hexec, hexec₁, hexec₂, hexec₃, bind_some]

end Blocks

def World.unfinished (w : World) (r : Role) : Nat := if (w.side r).done then (w.side r).cur + 1 else (w.side r).cur

/-- Further calls complete the oldest unfinished operation of each side. -/
def Completable (l : Link) (w : World) : Prop :=
  ∃ calls w', exec (step l) w calls = some w' ∧ ∀ r, w.unfinished r < l.count → Over w' r (w.unfinished r)

/-- Every run that is careful with the slots and in which no call has ended in an error can be continued so that each side
completes its oldest unfinished operation, if the numbers of the chunks fit their types. -/
theorem slots_progress (l : Link) (hfit : ∀ k < l.count, (l.transfer k).Fits) {w : World}
    (h : Reach (step l) (Careful (.slot l)) (World.init l) w) (hawake : ∀ r, (w.side r).halted = false) :
    Completable l w := by
  have hinv : Inv (.slot l) w := h.invariant (Inv.init _) fun _ _ _ hinv hok hstep => hinv.step hstep hfit hok
  by_cases hcount : l.count = 0
  · exact ⟨[], w, rfl, fun r hr => absurd hr (by omega)⟩
  · obtain ⟨calls, w', hexec, -, hover⟩ := (Runs.mk hinv hawake).completeAll hfit (Nat.sub_one_lt hcount)
    exact ⟨calls, w', hexec, fun r hr => (hover r).mono (Nat.le_sub_one_of_lt hr)⟩

/-- Both sides have begun the operation of eight bytes, and both report it in the end. -/
theorem slots_progress_eightBytes : ∃ w, Reach (step eightBytes) (Careful (.slot eightBytes)) (World.init eightBytes) w ∧
    .reset .recv 0 ∈ w.trace ∧ Completable eightBytes w := by
  have hrun : (exec (fun w a => if decide ((w.side a.1).cur = 0) then step eightBytes w a else none) (World.init eightBytes)
      (prompt [.send, .recv])).map (fun w =>
        (decide (.reset .recv 0 ∈ w.trace), decide ((w.side .send).halted = false ∧ (w.side .recv).halted = false))) =
      some (true, true) := by
    decide +kernel
  obtain ⟨w, hw, hpair⟩ := map_eq_some_iff.1 hrun
  obtain ⟨hreset, hawake⟩ := Prod.mk.inj hpair
  have hreach : Reach (step eightBytes) (Careful (.slot eightBytes)) (World.init eightBytes) w := by
    refine Reach.of_checked (fun w a hc _ _ k hk => ?_) hw
    rw [of_decide_eq_true hc] at hk
    cases hk
  refine ⟨w, hreach, of_decide_eq_true hreset,
    slots_progress eightBytes (fun k _ => Link.plain_fits 1 _ k) hreach fun r => ?_⟩
  cases r
  · exact (of_decide_eq_true hawake).1
  · exact (of_decide_eq_true hawake).2

/-! ## Sides that wait for each other -/

/-- The side `r` has taken its slot for an operation that the peer has not come to, and has not been told that the peer is done.
The peer is in its own slot, with its offer made, and finds no offer in the slot of `r`. -/
def Wedged (l : Link) (r : Role) (w : World) : Prop :=
  ((w.side r).done = false ∧ (w.slotPtr l r).opHash = l.hash r (w.side r).cur ∧
    (w.peerSlotPtr l r).opHash ≠ l.hash r.peer (w.side r).cur ∧ (w.slotPtr l r).peerDone = false) ∧
  (w.side r.peer).done = false ∧ (w.slotPtr l r.peer).opHash = l.hash r.peer (w.side r.peer).cur ∧
    (w.slotPtr l r.peer).peerDone = true ∧ (w.regInfoPtr l r.peer).offerReady = true ∧
    (w.peerRegInfoPtr l r.peer).offerReady = false

instance (l : Link) (r : Role) (w : World) : Decidable (Wedged l r w) := inferInstanceAs (Decidable (_ ∧ _))

section Wedged
variable {l : Link} {r : Role} {w w' : World}

theorem progress_of_returns {ans : Answers} (hbusy : (w.side r).done = false)
    (hhash : (w.slotPtr l r).opHash = l.hash r (w.side r).cur) (hreturns : handshake l r ans w = (some .success, w)) :
    progress l r ans w = (.success, w) := by
  have hreset : resetSlot l r w = (none, w) := by
    unfold resetSlot
    rw [if_neg (fun hfree => l.hash_ne_free _ _ (hhash.symm.trans hfree))]
  have hown : ownSlot l r w = (none, w) := by
    unfold ownSlot
    rw [if_neg (fun hne => hne hhash)]
  unfold progress Body.call
  dsimp only
  rw [if_neg (by simp [hbusy])]
  split
  · rfl
  · rw [Body.andThen_of_none hreset, Body.andThen_of_none hown, hreturns]
    rfl

theorem afterCall_of_busy {ans : Answers} (hbusy : (w.side r).done = false) : afterCall r ans (.success, w) = w := by
  simp [afterCall, Result.accepted, hbusy]

theorem Wedged.step (h : Wedged l r w) {a : Role × Answers} (hstep : step l w a = some w') : w' = w := by
  obtain ⟨⟨hbusy, hhash, hpeer, htold⟩, hbusy', hhash', htold', hready, hnot⟩ := h
  unfold P2pShm.step at hstep
  dsimp only at hstep
  split_ifs at hstep
  rw [progressProxyOp_eq] at hstep
  obtain rfl := some.inj hstep
  obtain ⟨x, ans⟩ := a
  rcases Role.eq_or_eq_peer r x with rfl | rfl
  · have hclosed : peerSlot l x w = (some .success, w) := by
      unfold peerSlot
      rw [if_pos ⟨hpeer, htold⟩]
    rw [progress_of_returns hbusy hhash (Body.andThen_of_some hclosed _), afterCall_of_busy hbusy]
  · have hopen : peerSlot l r.peer w = (none, w) := by
      unfold peerSlot
      rw [if_neg (by simp [htold'])]
    have hpublish : publishOffer l r.peer w = (none, w) := by
      unfold publishOffer
      rw [if_neg (by simp [hready])]
    have hawait : awaitOffer l r.peer w = (some .success, w) := by
      unfold awaitOffer
      rw [if_pos hnot]
    have hreturns : handshake l r.peer ans w = (some .success, w) := by
      unfold handshake
      rw [Body.andThen_of_none hopen, Body.andThen_of_none hpublish]
      exact Body.andThen_of_some hawait _
    rw [progress_of_returns hbusy' hhash' hreturns, afterCall_of_busy hbusy']

theorem Wedged.exec (h : Wedged l r w) {calls : List (Role × Answers)} (hexec : exec (P2pShm.step l) w calls = some w') :
    w' = w := by
  induction calls with
  | nil =>
    cases hexec
    rfl
  | cons a calls ih =>
    rw [Lib.exec] at hexec
    obtain ⟨w₁, hstep, hexec⟩ := bind_eq_some_iff.1 hexec
    rw [h.step hstep] at hexec
    exact ih hexec

theorem Wedged.not_completable (h : Wedged l r w) (hcount : (w.side r).cur < l.count) : ¬ Completable l w := by
  intro ⟨calls, w', hexec, hover⟩
  have hunfinished : w.unfinished r = (w.side r).cur := by simp [World.unfinished, h.1.1]
  have hdone := hover r (by rwa [hunfinished])
  rw [h.exec hexec, hunfinished] at hdone
  simp [Over, h.1.1] at hdone

end Wedged

def sameSlot : Link := .plain 2 fun k => (if k = 0 then 8 else 16, 0, 1)

/-- The receiver reports the first operation and takes its slot for the second, while the sender has not reported the first. -/
theorem slots_progress_counterexample : sameSlot.Prepared .send ∧ sameSlot.Prepared .recv ∧
    ∃ w, Reach (step sameSlot) (fun _ _ => True) (World.init sameSlot) w ∧ (∀ r, (w.side r).halted = false) ∧
      ¬ Completable sameSlot w := by
  have hrun : (exec (step sameSlot) (World.init sameSlot) (prompt (oneChunk.dropLast ++ [.recv]))).map (fun w =>
      (decide (Wedged sameSlot .recv w ∧ (w.side .recv).cur < 2),
        decide ((w.side .send).halted = false ∧ (w.side .recv).halted = false))) = some (true, true) := by
    decide +kernel
  obtain ⟨w, hw, hpair⟩ := map_eq_some_iff.1 hrun
  obtain ⟨hwedged, hawake⟩ := Prod.mk.inj hpair
  obtain ⟨hwedged, hcount⟩ := of_decide_eq_true hwedged
  refine ⟨by decide +kernel, by decide +kernel, w, .of_exec (fun _ _ _ => trivial) hw, fun r => ?_,
    hwedged.not_completable hcount⟩
  cases r
  · exact (of_decide_eq_true hawake).1
  · exact (of_decide_eq_true hawake).2

end FlagCX.P2pShm
