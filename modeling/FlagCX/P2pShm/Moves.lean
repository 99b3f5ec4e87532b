import FlagCX.P2pShm.Protocol

/-!
# The parts of a call that make the plan and move the data

* `Turn`, `Planned` : a side in the middle of a call, before and after its plan is made.
* `peerSlot_spec`, `publishOffer_spec`, `awaitOffer_spec`, `resolvePlan_spec` : the handshake. Both sides make the same plan.
* `issueDirect_spec`, `queryDirect_spec`, `awaitDirect_spec` : the copy of the whole message.
-/

namespace FlagCX.P2pShm
open Lib Function List Option

section Moves
-- a goal about a call would be evaluated down to the comparison of two numbers
attribute [local irreducible] Chunking.chunkSteps
variable {l : Link} {C : Conflict l} {w : World} {r : Role} {s : Side} {o : SyncSlot} {g : RegInfo} {t : List Event}

/-- A side in the middle of a call, at operation `k`. -/
structure Turn {l : Link} (C : Conflict l) (r : Role) (k : Nat) (w : World) : Prop where
  inv : Inv C w
  live : Live l w r
  awake : (w.side r).halted = false
  cur : (w.side r).cur = k

/-- What a call leaves when it returns: an error ends the queue. -/
def Ended {l : Link} (C : Conflict l) (r : Role) (result : Result) (w : World) : Prop :=
  Inv C (if result.accepted then w else w.setSide r { w.side r with halted := true })

def Entered (l : Link) (r : Role) (w : World) : Prop := Fin l w r.peer (w.side r).cur ∨ Met l w r

variable {k : Nat}

theorem Turn.head (h : Turn C r k w) : Head l r (w.side r) (w.slotPtr l r) (w.regInfoPtr l r) w.trace := h.inv.head r h.live

theorem World.setSide_eq (l : Link) (w : World) (r : Role) (s : Side) :
    w.setSide r s = w.act l r s (w.slotPtr l r) (w.regInfoPtr l r) [] := by
  simp [setSide, act, slotPtr, regInfoPtr]

theorem World.setRegInfoPtr_eq (l : Link) (w : World) (r : Role) (g : RegInfo) :
    w.setRegInfoPtr l r g = w.act l r (w.side r) (w.slotPtr l r) g [] := by
  simp [setRegInfoPtr, setReg, act, slotPtr]

@[simp] theorem World.act_log (e : Event) : (w.act l r s o g t).log e = w.act l r s o g (t ++ [e]) := by simp [log, act]

theorem SamePhase.rfl' (l : Link) (w : World) (r : Role) : SamePhase l w r (w.side r) (w.slotPtr l r) := ⟨rfl, rfl, rfl, rfl, rfl⟩

theorem Turn.act (h : Turn C r k w) (hp : SamePhase l w r s o) (hs : s.halted = false)
    (hinv : Inv C (w.act l r s o g t)) : Turn C r k (w.act l r s o g t) where
  inv := hinv
  live := (hp.live_iff r).2 h.live
  awake := by rw [World.act_side_self, hs]
  cur := by rw [World.act_side_self, hp.cur, h.cur]

theorem Entered.act (h : Entered l r w) (hp : SamePhase l w r s o) : Entered l r (w.act l r s o g t) := by
  unfold Entered
  rw [hp.fin_iff, hp.cur_iff, hp.met_iff]
  exact h

theorem Entered.joined (h : Entered l r w) : Over w r.peer (w.side r).cur ∨ Met l w r := by
  rcases h with (hover | ⟨hcur, hlive, -⟩) | hmet
  · exact .inl hover
  · exact .inr ⟨hcur.symm, hlive⟩
  · exact .inr hmet

/-! ### The offer and the plan -/

variable {trace : List Event}

theorem Head.publish (h : Head l r s o g trace) : Head l r s o (g.publish ((l.transfer s.cur).registration r)) trace where
  offered _ := rfl
  pending := h.pending
  planned hne := ⟨(h.planned hne).1, rfl⟩
  finished := h.finished
  copyDone := h.copyDone
  direct c hc := ⟨(h.direct c hc).copied, (h.direct c hc).transmitted, (h.direct c hc).le, (h.direct c hc).issued,
    (h.direct c hc).waited, (h.direct c hc).done, (h.direct c hc).flag⟩
  chunked := h.chunked

theorem publishOffer_spec (h : Turn C r k w) (he : Entered l r w) :
    Body.Post (fun w => Turn C r k w ∧ Entered l r w ∧ (w.regInfoPtr l r).offerReady = true) (Ended C r)
      (publishOffer l r w) := by
  have hp := SamePhase.rfl' l w r
  unfold publishOffer
  split
  · rename_i hoffer
    rw [World.setRegInfoPtr_eq]
    refine ⟨h.act hp h.awake (h.inv.act h.live hp ?_ ?_ ?_ ?_ ?_ ?_), he.act hp, ?_⟩
    · rw [append_nil]
      exact h.head.publish
    · exact fun _ => he.joined
    · exact h.inv.room r h.live
    · rw [append_nil]
      exact h.inv.written r
    · simp
    · rw [append_nil]
      exact h.inv.allowed
    · rw [World.act_regInfoPtr_self hp.cur]
      rfl
  · rename_i hoffer
    exact ⟨h, he, by simpa using hoffer⟩

theorem Met.peerSlotPtr (h : Met l w r) : w.peerSlotPtr l r = w.slotPtr l r.peer := by
  rw [World.peerSlotPtr, World.slotPtr, h.1]

theorem Met.peerRegInfoPtr (h : Met l w r) : w.peerRegInfoPtr l r = w.regInfoPtr l r.peer := by
  rw [World.peerRegInfoPtr, World.regInfoPtr, h.1]

theorem Turn.entered (h : Turn C r k w) (hopen : (w.peerSlotPtr l r).opHash = l.hash r.peer (w.side r).cur ∨
    (w.slotPtr l r).peerDone = true) : Entered l r w := by
  rcases hopen with hhash | htold
  · rcases h.inv.free r.peer (w.side r).cur with hfree | ⟨hlive, hidx⟩
    · exact absurd (hhash.symm.trans hfree) (l.hash_ne_free _ _)
    · have hsame : l.hash r.peer (w.side r.peer).cur = l.hash r.peer (w.side r).cur := by
        rw [← hlive.2, ← hhash, World.slotPtr, World.peerSlotPtr, hidx]
      rcases lt_trichotomy (w.side r.peer).cur (w.side r).cur with hlt | heq | hgt
      · -- the side is ahead of its peer, and its own hash would be that of the operation before
        have hnot : ¬ Over w r.peer (w.side r.peer).cur := hlive.not_over
        have hnext : (w.side r).cur = (w.side r.peer).cur + 1 := by
          by_contra hne
          have := (h.inv.along r ((w.side r.peer).cur + 1) (.inl (by omega))).le
          omega
        refine absurd (C.of_hash r _ ?_) (h.inv.distinct r _ hnext h.live hnot)
        rw [hnext] at hsame
        exact (l.hash_peer.1 hsame).symm
      · exact .inr ⟨heq, hlive⟩
      · -- the peer is ahead, and has a hash of its own
        have hnot : ¬ Over w r (w.side r).cur := h.live.not_over
        have hnext : (w.side r.peer).cur = (w.side r).cur + 1 := by
          by_contra hne
          have := (h.inv.along r.peer ((w.side r).cur + 1) (.inl (by omega))).le
          rw [Role.peer_peer] at this
          omega
        have hdistinct := h.inv.distinct r.peer _ hnext hlive (by rwa [Role.peer_peer])
        rw [hnext] at hsame
        exact absurd (C.of_hash _ _ hsame) hdistinct
  · exact .inl ((h.inv.told r h.live).1 htold)

theorem peerSlot_spec (h : Turn C r k w) :
    Body.Post (fun w => Turn C r k w ∧ Entered l r w) (Ended C r) (peerSlot l r w) := by
  unfold peerSlot
  split
  · exact h.inv
  · rename_i hopen
    refine ⟨h, h.entered ?_⟩
    by_contra hne
    rw [not_or, Bool.not_eq_true] at hne
    exact hopen hne

theorem awaitOffer_spec (h : Turn C r k w) (he : Entered l r w) (hown : (w.regInfoPtr l r).offerReady = true) :
    Body.Post (fun w => Turn C r k w ∧ Entered l r w ∧ (w.regInfoPtr l r).offerReady = true ∧
      (w.peerRegInfoPtr l r).offerReady = true) (Ended C r) (awaitOffer l r w) := by
  unfold awaitOffer
  split
  · exact h.inv
  · rename_i hpeer
    exact ⟨h, he, hown, by simpa using hpeer⟩

theorem resolve_offers {send recv : RegInfo} (hsend : send.publish ((l.transfer k).registration .send) = send)
    (hrecv : recv.publish ((l.transfer k).registration .recv) = recv) :
    resolveTransferPlan send.registered recv.registered send.forceFifo recv.forceFifo = l.planOf k := by
  rw [← hsend, ← hrecv]
  rfl

theorem Head.plan (h : Head l r s o g trace) (hoffer : g.offerReady = true) {s' : Side} {p : Plan}
    (hs : s' = { s with p2pPlan := p }) (hplan : p = l.planOf s.cur) : Head l r s' o g trace := by
  subst hs hplan
  exact
    { offered := h.offered
      pending := fun hpending => absurd hpending (l.planOf_ne _)
      planned := fun _ => ⟨rfl, hoffer⟩
      finished := h.finished
      copyDone := h.copyDone
      direct := fun c hc =>
        have hd := h.direct c hc
        ⟨hd.copied, hd.transmitted, hd.le, hd.issued, hd.waited, hd.done, hd.flag⟩
      chunked := fun hc =>
        have hd := h.chunked hc
        ⟨hd.le, hd.steps, hd.room, hd.total, hd.slot, hd.event, hd.issued, hd.done⟩ }

theorem World.act_peerRegInfoPtr (hcur : s.cur = (w.side r).cur) :
    (w.act l r s o g t).peerRegInfoPtr l r = w.peerRegInfoPtr l r := by
  rw [peerRegInfoPtr, act_side_self, hcur, act_regInfos_peer]
  rfl

structure Planned {l : Link} (C : Conflict l) (r : Role) (k : Nat) (w : World) : Prop extends Turn C r k w where
  entered : Entered l r w
  plan : (w.side r).p2pPlan = l.planOf k
  offer : (w.peerRegInfoPtr l r).offerReady = true

theorem resolvePlan_spec (h : Turn C r k w) (he : Entered l r w) (hown : (w.regInfoPtr l r).offerReady = true)
    (hpeer : (w.peerRegInfoPtr l r).offerReady = true) :
    Body.Post (Planned C r k) (Ended C r) (resolvePlan l r w) := by
  unfold resolvePlan
  by_cases hpending : (w.side r).p2pPlan = .pending
  · have hmet : Met l w r := h.inv.met h.live (h.head.pending hpending).2 he
    have hoffer := h.head.offered hown
    have hoffer' : (w.peerRegInfoPtr l r).publish ((l.transfer (w.side r).cur).registration r.peer) =
        w.peerRegInfoPtr l r := by
      rw [hmet.peerRegInfoPtr] at hpeer ⊢
      have := (h.inv.head r.peer hmet.2).offered hpeer
      rwa [hmet.1] at this
    have hplan : resolveTransferPlan (w.offers l r).1.registered (w.offers l r).2.registered (w.offers l r).1.forceFifo
        (w.offers l r).2.forceFifo = l.planOf (w.side r).cur := by
      cases r with
      | send => exact resolve_offers hoffer hoffer'
      | recv => exact resolve_offers hoffer' hoffer
    have hp : SamePhase l w r { w.side r with p2pPlan := l.planOf (w.side r).cur } (w.slotPtr l r) :=
      ⟨rfl, rfl, rfl, rfl, rfl⟩
    dsimp only
    rw [if_pos hpending, hplan, World.setSide_eq l, World.act_log, nil_append]
    refine ⟨h.act hp h.awake (h.inv.act h.live hp ?_ (fun _ => .inr hmet) (h.inv.room r h.live) ?_ ?_ ?_), he.act hp, ?_, ?_⟩
    · exact (h.head.mono (subset_append_left _ _)).plan hown rfl rfl
    · intro hs k j o n f hmem
      exact h.inv.written r hs k j o n f (by simpa using hmem)
    · simp
    · exact h.inv.allowed.concat rfl
    · rw [World.act_side_self, h.cur]
    · rwa [World.act_peerRegInfoPtr hp.cur]
  · dsimp only
    rw [if_neg hpending]
    exact ⟨h, he, by rw [(h.head.planned hpending).1, h.cur], hpeer⟩

/-! ### The copies -/

theorem Head.move {trace' : List Event} {s' : Side} {o' : SyncSlot} (h : Head l r s o g trace)
    (hne : s.p2pPlan ≠ .pending) (hcur : s'.cur = s.cur) (hplan : s'.p2pPlan = s.p2pPlan) (hnot : o'.done = false)
    (hsub : trace ⊆ trace') (hdirect : ∀ c, copier (l.planOf s.cur) = some c → Direct l r c s' g trace')
    (hchunked : copier (l.planOf s.cur) = none → Chunks l r s' o' trace') : Head l r s' o' g trace' where
  offered := by
    rw [hcur]
    exact h.offered
  pending hpending := absurd (hplan.symm.trans hpending) hne
  planned _ := by
    rw [hplan, hcur]
    exact h.planned hne
  finished hdone := by
    rw [hnot] at hdone
    cases hdone
  copyDone hg := by
    rw [hcur]
    exact ⟨(h.copyDone hg).1, hsub (h.copyDone hg).2⟩
  direct := by
    rw [hcur]
    exact hdirect
  chunked := by
    rw [hcur]
    exact hchunked

theorem Direct.issue (h : Direct l r r s g trace) (hlt : s.transmitted < (l.transfer s.cur).steps) (total addr size : Nat) :
    Direct l r r { s with
      copied := (l.transfer s.cur).steps, totalCopySize := total, events := update s.events 0 (s.cur, 0) } g
      (trace ++ [.direct r s.cur addr size]) where
  copied := .inr rfl
  transmitted := h.transmitted
  le := hlt.le
  issued _ _ := ⟨by simp, addr, size, by simp⟩
  waited hne := absurd rfl hne
  done hne := mem_append_left _ (h.done hne)
  flag := h.flag

theorem Chunks.issue (h : Chunks l r s o trace) (hfit : (l.transfer s.cur).Fits)
    (hlt : s.copied < (l.transfer s.cur).steps) (hroom : s.copied < s.transmitted + l.chunks) :
    Chunks l r { s with
      copied := s.copied + 1
      totalCopySize := Chunking.addSize s.totalCopySize ((l.transfer s.cur).length s.copied)
      events := update s.events (s.copied % l.chunks) (s.cur, s.copied) } o
      (trace ++ [chunkEvent l r s.cur s.copied]) where
  le := Nat.le_succ_of_le h.le
  steps := hlt
  room := hroom
  total := by
    rw [h.total]
    exact hfit.total hlt
  slot := h.slot
  event j hj hj' := by
    change s.transmitted ≤ j at hj
    rcases Nat.lt_succ_iff_lt_or_eq.1 hj' with hlt | rfl
    · show update s.events (s.copied % l.chunks) _ (j % l.chunks) = _
      rw [update_of_ne (slot_ne (p := s.copied + 1) (by omega) (by omega) (by omega) (by omega) (by omega))]
      exact h.event j hj hlt
    · exact update_self _ _ _
  issued j hj := by
    rcases Nat.lt_succ_iff_lt_or_eq.1 hj with hlt | rfl
    · exact mem_append_left _ (h.issued j hlt)
    · exact mem_append_right _ mem_cons_self
  done j hj := mem_append_left _ (h.done j hj)

theorem Chunks.settle (h : Chunks l r s o trace) (hlt : s.transmitted < s.copied) :
    Chunks l r { s with transmitted := s.transmitted + 1 } (o.advance (s.transmitted + 1) l.chunks r)
      (trace ++ [.chunkDone r s.cur s.transmitted]) where
  le := hlt
  steps := h.steps
  room := by
    have := h.room
    show s.copied ≤ s.transmitted + 1 + l.chunks
    omega
  total := h.total
  slot := by cases r <;> rfl
  event j hj hj' := h.event j (Nat.le_of_succ_le hj) hj'
  issued j hj := mem_append_left _ (h.issued j hj)
  done j hj := by
    rcases Nat.lt_succ_iff_lt_or_eq.1 hj with hlt | rfl
    · exact mem_append_left _ (h.done j hlt)
    · exact mem_append_right _ mem_cons_self

theorem Turn.halt (h : Turn C r k w) (hother : ∀ k j o n f, .chunk r.peer k j o n f ∉ t)
    (hallowed : Justified (Allowed l) (w.trace ++ t)) :
    Inv C (w.act l r { w.side r with halted := true } (w.slotPtr l r) (w.regInfoPtr l r) t) := by
  have hp : SamePhase l w r { w.side r with halted := true } (w.slotPtr l r) := ⟨rfl, rfl, rfl, rfl, rfl⟩
  refine h.inv.act h.live hp ?_ (h.inv.joined r h.live) (h.inv.room r h.live) (fun hs => by cases hs) hother hallowed
  have hhead := h.head.mono (subset_append_left w.trace t)
  exact
    { offered := hhead.offered
      pending := fun hpending =>
        have hidle := (hhead.pending hpending).1
        ⟨⟨hidle.plan, hidle.copied, hidle.transmitted, hidle.total⟩, (hhead.pending hpending).2⟩
      planned := hhead.planned
      finished := hhead.finished
      copyDone := hhead.copyDone
      direct := fun c hc =>
        have hd := hhead.direct c hc
        ⟨hd.copied, hd.transmitted, hd.le, hd.issued, hd.waited, hd.done, hd.flag⟩
      chunked := fun hc =>
        have hd := hhead.chunked hc
        ⟨hd.le, hd.steps, hd.room, hd.total, hd.slot, hd.event, hd.issued, hd.done⟩ }

section

variable {result : Result} (h : Turn C r k w) (hresult : result.accepted = false)
include h hresult

theorem Turn.ended : Ended C r result w := by
  have hhalt := h.halt (t := []) (by simp) (by rw [append_nil]; exact h.inv.allowed)
  rw [Ended, hresult, World.setSide_eq l]
  exact hhalt

theorem Turn.ended_log {e : Event} (he : Allowed l w.trace e) (hother : ∀ k j o n f, e ≠ .chunk r.peer k j o n f) :
    Ended C r result (w.log e) := by
  have hhalt := h.halt (t := [e]) (fun k j o n f hmem => hother k j o n f (mem_singleton.1 hmem).symm)
    (h.inv.allowed.concat he)
  rw [Ended, hresult, if_neg Bool.false_ne_true]
  have heq : (w.log e).setSide r { (w.log e).side r with halted := true } =
      w.act l r { w.side r with halted := true } (w.slotPtr l r) (w.regInfoPtr l r) [e] := by
    simp [World.log, World.setSide, World.act, World.slotPtr, World.regInfoPtr]
  rw [heq]
  exact hhalt

end

section Planned
variable (h : Planned C r k w)
include h

theorem Planned.plan_ne : (w.side r).p2pPlan ≠ .pending := by
  rw [h.plan]
  exact l.planOf_ne k

theorem Planned.met (hlt : (w.side r).transmitted < (l.transfer k).steps) : (w.slotPtr l r).done = false ∧ Met l w r := by
  have hnot : (w.slotPtr l r).done = false := by
    by_contra hdone
    have := h.head.finished (by simpa using hdone)
    rw [h.cur] at this
    omega
  exact ⟨hnot, h.inv.met h.live hnot h.entered⟩

theorem Planned.move (hp : SamePhase l w r s o) (hplan : s.p2pPlan = (w.side r).p2pPlan) (hhalted : s.halted = false)
    (hhead : Head l r s o g (w.trace ++ t)) (hmet : Met l w r)
    (hroom : copier (l.planOf k) = none → Room l r s (w.side r.peer))
    (hwritten : ∀ k j o n f, .chunk r k j o n f ∈ w.trace ++ t → Over w r k ∨ k = s.cur ∧ j < s.copied)
    (hother : ∀ k j o n f, .chunk r.peer k j o n f ∉ t) (hallowed : Justified (Allowed l) (w.trace ++ t)) :
    Planned C r k (w.act l r s o g t) where
  toTurn := by
    refine h.act hp hhalted (h.inv.act h.live hp hhead (fun _ => .inr hmet) (fun _ hc => hroom ?_) (fun _ => hwritten)
      hother hallowed)
    rwa [hp.cur, h.cur] at hc
  entered := h.entered.act hp
  plan := by rw [World.act_side_self, hplan, h.plan]
  offer := by
    rw [World.act_peerRegInfoPtr hp.cur]
    exact h.offer

theorem Planned.remoteAddr (hc : copier (l.planOf k) = some r) (hmet : Met l w r) :
    (w.peerRegInfoPtr l r).remoteAddr = ((l.transfer k).registration r.peer).rmtAddr := by
  have hoffer := h.offer
  rw [hmet.peerRegInfoPtr] at hoffer ⊢
  have hpublish := (h.inv.head r.peer hmet.2).offered hoffer
  rw [hmet.1, h.cur] at hpublish
  have hreg : ((l.transfer k).registration r.peer).registered = true :=
    @registered_of_copier (fun r => ((l.transfer k).registration r).registered) _ _ _ hc
  rw [← hpublish]
  exact if_pos hreg

section

variable (hfit : (l.transfer k).Fits)
include hfit

theorem Planned.toSteps : (l.transfer (w.side r).cur).chunkSteps.toNat = (l.transfer (w.side r).cur).steps := by
  rw [h.cur, hfit.chunkSteps, Int.toNat_natCast]

theorem issueDirect_spec (ans : Answers) (hc : copier (l.planOf k) = some r)
    (hlt : (w.side r).transmitted < (l.transfer k).steps) :
    Body.Post (Planned C r k) (Ended C r) (issueDirect l r ans w) := by
  unfold issueDirect
  obtain ⟨hnot, hmet⟩ := h.met hlt
  by_cases hcopied : (w.side r).copied = 0
  · have hallowed : Allowed l w.trace
        (.direct r (w.side r).cur (w.peerRegInfoPtr l r).remoteAddr (l.transfer (w.side r).cur).size) := by
      rw [h.cur]
      exact ⟨hc, h.remoteAddr hc hmet, rfl⟩
    rw [if_pos hcopied, h.toSteps hfit]
    cases hm : ans.deviceMemcpy.accepted with
    | false => simpa [Body.andThen, check, hm] using h.ended hm
    | true =>
      cases hr : ans.eventRecord.accepted with
      | false =>
        have hended := h.ended_log hr hallowed (by simp)
        simpa [Body.andThen, check, hm, hr] using hended
      | true =>
        have hmove := h.move (o := w.slotPtr l r) (g := w.regInfoPtr l r)
          (s := { w.side r with
            copied := (l.transfer (w.side r).cur).steps, totalCopySize := (l.transfer (w.side r).cur).size,
            events := update (w.side r).events 0 ((w.side r).cur, 0) })
          (t := [.direct r (w.side r).cur (w.peerRegInfoPtr l r).remoteAddr (l.transfer (w.side r).cur).size])
          ⟨rfl, rfl, rfl, rfl, rfl⟩ rfl h.awake ?_ hmet ?_ ?_ (by simp) (h.inv.allowed.concat hallowed)
        · simpa [Body.andThen, check, hm, hr, World.log, World.setSide, World.act, World.slotPtr, World.regInfoPtr] using hmove
        · refine h.head.move h.plan_ne rfl rfl hnot (subset_append_left _ _) (fun c hc' => ?_) (fun hc' => ?_)
          · rw [h.cur, hc] at hc'
            obtain rfl := some.inj hc'
            exact (h.head.direct r (by rw [h.cur, hc])).issue (by rwa [h.cur]) _ _ _
          · rw [h.cur, hc] at hc'
            cases hc'
        · intro hc'
          rw [hc] at hc'
          cases hc'
        · intro k' j o n f hmem
          rcases h.inv.written r h.awake k' j o n f (by simpa using hmem) with hover | ⟨-, hj⟩
          · exact .inl hover
          · rw [hcopied] at hj
            cases hj
  · rw [if_neg hcopied]
    exact h

theorem queryDirect_spec (ans : Answers) (hc : copier (l.planOf k) = some r) :
    Body.Post (Planned C r k) (Ended C r) (queryDirect l r ans w) := by
  unfold queryDirect
  by_cases hlt : (w.side r).transmitted < (w.side r).copied
  · rw [if_pos hlt, h.toSteps hfit]
    have hd := h.head.direct r (by rw [h.cur, hc])
    have hcopied : (w.side r).copied = (l.transfer (w.side r).cur).steps := by
      rcases hd.copied with hzero | hall
      · omega
      · exact hall
    obtain ⟨hnot, hmet⟩ := h.met (by rw [← h.cur, ← hcopied]; exact hlt)
    have hne : (w.side r).copied ≠ 0 := by omega
    obtain ⟨hevent, addr, size, hissued⟩ := hd.issued hne rfl
    have hallowed : Allowed l w.trace (.directDone r (w.side r).cur) := ⟨addr, size, hissued⟩
    unfold query
    by_cases hs : ans.eventQuery = .success
    · rw [if_pos hs, hevent]
      have hmove := h.move (o := w.slotPtr l r) (g := { w.regInfoPtr l r with copyDone := true })
        (s := { w.side r with transmitted := (l.transfer (w.side r).cur).steps }) (t := [.directDone r (w.side r).cur])
        ⟨rfl, rfl, rfl, rfl, rfl⟩ rfl h.awake ?_ hmet ?_ ?_ (by simp) (h.inv.allowed.concat hallowed)
      · simpa [World.log, World.setSide, World.act, World.slotPtr, World.setRegInfoPtr, World.setReg] using hmove
      · refine ⟨?_, fun hp => absurd hp h.plan_ne, fun _ => h.head.planned h.plan_ne, fun _ => rfl, ?_, fun c hc' => ?_,
          fun hc' => ?_⟩
        · exact fun hready => congrArg (fun g : RegInfo => { g with copyDone := true }) (h.head.offered hready)
        · refine fun _ => ⟨?_, by simp⟩
          rw [← hc, ← h.cur]
        · obtain rfl : r = c := by rw [← some_inj, ← hc, ← hc', ← h.cur]
          exact ⟨hd.copied, .inr rfl, hcopied.ge, fun _ _ => ⟨hevent, addr, size, mem_append_left _ hissued⟩,
            fun hne => absurd rfl hne, fun _ => by simp, fun _ _ => rfl⟩
        · have hcur : (w.side r).cur = k := h.cur
          simp only [hcur, hc, reduceCtorEq] at hc'
      · intro hc'
        rw [hc] at hc'
        cases hc'
      · intro k' j o n f hmem
        exact h.inv.written r h.awake k' j o n f (by simpa using hmem)
    · rw [if_neg hs]
      split
      · exact h
      · rename_i hp
        exact h.ended (by simp [Result.accepted, hs, hp])
  · rw [if_neg hlt]
    exact h

theorem awaitDirect_spec (hc : copier (l.planOf k) = some r.peer) (hlt : (w.side r).transmitted < (l.transfer k).steps) :
    Body.Post (Planned C r k) (Ended C r) (awaitDirect l r w) := by
  unfold awaitDirect
  obtain ⟨hnot, hmet⟩ := h.met hlt
  by_cases hdone : (w.peerRegInfoPtr l r).copyDone = true
  · rw [if_pos hdone, h.toSteps hfit, World.setSide_eq l]
    have htold : .directDone r.peer (w.side r).cur ∈ w.trace := by
      rw [hmet.peerRegInfoPtr] at hdone
      have := ((h.inv.head r.peer hmet.2).copyDone hdone).2
      rwa [hmet.1] at this
    refine h.move ⟨rfl, rfl, rfl, rfl, rfl⟩ rfl h.awake ?_ hmet ?_ ?_ (by simp) (by simpa using h.inv.allowed)
    · refine h.head.move h.plan_ne rfl rfl hnot (subset_append_left _ _) (fun c hc' => ?_) (fun hc' => ?_)
      · rw [h.cur, hc] at hc'
        obtain rfl := some.inj hc'
        exact ⟨.inr rfl, .inr rfl, le_rfl, fun _ heq => absurd heq.symm r.peer_ne, fun _ => rfl,
          fun _ => mem_append_left _ htold, fun _ heq => absurd heq.symm r.peer_ne⟩
      · rw [h.cur, hc] at hc'
        cases hc'
    · intro hc'
      rw [hc] at hc'
      cases hc'
    · intro k' j o n f hmem
      rcases h.inv.written r h.awake k' j o n f (by simpa using hmem) with hover | ⟨hk, hj⟩
      · exact .inl hover
      · refine .inr ⟨hk, lt_of_lt_of_le hj ?_⟩
        rcases (h.head.direct r.peer (by rw [h.cur, hc])).copied with hzero | hall
        · rw [hzero]
          exact Nat.zero_le _
        · exact hall.le
  · rw [if_neg hdone]
    exact h

end

section

variable (hc : copier (l.planOf k) = none) (hmet : Met l w r)
include hc hmet

theorem Planned.peerChunks : Chunks l r.peer (w.side r.peer) (w.peerSlotPtr l r) w.trace := by
  have hhead := h.inv.head r.peer hmet.2
  rw [← hmet.peerSlotPtr] at hhead
  exact hhead.chunked (by rw [hmet.1, h.cur, hc])

theorem Planned.limit (hlt : (w.side r).copied < (w.peerSlotPtr l r).limit r) :
    (w.side r).copied < (w.side r.peer).transmitted + if r = .send then l.chunks else 0 := by
  have hslot := (h.peerChunks hc hmet).slot
  cases r with
  | send =>
    have := congrArg SyncSlot.recvTail hslot
    change (w.side .send).copied < (w.peerSlotPtr l .send).recvTail at hlt
    rw [← this] at hlt
    exact hlt
  | recv =>
    have := congrArg SyncSlot.sendHead hslot
    change (w.side .recv).copied < (w.peerSlotPtr l .recv).sendHead at hlt
    rw [← this] at hlt
    exact hlt

theorem Planned.fifoFree (hlt : (w.side r).copied < (w.peerSlotPtr l r).limit r) :
    FifoFree l w.trace k (w.side r).copied r := by
  have hlimit := h.limit hc hmet hlt
  have hpeer := h.peerChunks hc hmet
  have hcur := h.cur
  have hpeercur := hmet.1
  have hpos := (l.transfer k).chunkSize_pos
  -- two chunks of the operation that share a place are a whole round apart
  have hround : ∀ {j j'}, j' < j → (l.transfer k).chunkSize * (j' % l.chunks) = (l.transfer k).chunkSize * (j % l.chunks) →
      j' + l.chunks ≤ j := fun hj he => add_le_of_slot_eq hj (Nat.eq_of_mul_eq_mul_left hpos he)
  have hplace : ∀ {r k j o n f}, .chunk r k j o n f ∈ w.trace → f = (l.transfer k).chunkSize * (j % l.chunks) := by
    intro r k j o n f hmem
    obtain ⟨pre, post, -, -, -, heq, -⟩ := h.inv.allowed.of_mem hmem
    exact (Event.chunk.inj heq).2.2.2.2.2
  cases r with
  | send =>
    intro k' j' o n f hmem hor
    rcases h.inv.written .send h.awake k' j' o n f hmem with hover | ⟨rfl, hj⟩
    · exact h.inv.chunkDone_of_fin (h.inv.along .send k' hover) hmem
    · rw [hcur] at hor hmem ⊢
      obtain rfl := hplace hmem
      have hfar := hround hj (hor.resolve_left (fun hne => hne rfl))
      rw [if_pos rfl] at hlimit
      have hdone := hpeer.done j' (by omega)
      rwa [hpeercur, hcur] at hdone
  | recv =>
    have hdone := hpeer.done _ hlimit
    rw [hpeercur, hcur] at hdone
    refine ⟨hdone, fun old new htrace k' j' o n f hmem => ?_⟩
    by_contra hnot
    -- the later chunk was written there only after this one was copied out
    obtain ⟨pre, post, rfl⟩ := append_of_mem hmem
    have hallowed := h.inv.allowed (old ++ chunkEvent l .send k (w.side .recv).copied :: pre) (.chunk .send k' j' o n f) post
      (by simp [htrace])
    obtain ⟨-, -, heq, hfree⟩ := hallowed
    have hf := (Event.chunk.inj heq).2.2.2.2.2
    have hcopied : .chunkDone .recv k (w.side .recv).copied ∈ w.trace := by
      have := hfree k (w.side .recv).copied _ _ _ (mem_append_right _ mem_cons_self) ?_
      · rw [htrace]
        simp only [mem_append, mem_cons] at this ⊢
        tauto
      · by_cases hk : k' = k
        · right
          subst hk
          rw [← hf]
          by_contra hne
          exact hnot ⟨rfl, fun he => hne he.symm⟩
        · exact .inl (Ne.symm hk)
    obtain ⟨before, after, htrace', hissued⟩ := h.inv.allowed.of_mem hcopied
    have hissued' : chunkEvent l .recv k (w.side .recv).copied ∈ w.trace := by
      rw [htrace']
      exact mem_append_left _ hissued
    rcases h.inv.written .recv h.awake _ _ _ _ _ hissued' with hover | ⟨-, hj⟩
    · rw [← hcur] at hover
      exact h.live.not_over hover
    · exact lt_irrefl _ hj

end

theorem issueChunk_spec (hfit : (l.transfer k).Fits) (ans : Answers) (hc : copier (l.planOf k) = none)
    (hlt : (w.side r).transmitted < (l.transfer k).steps) :
    Body.Post (Planned C r k) (Ended C r) (issueChunk l r ans w) := by
  have hnot := (h.met hlt).1
  have hmet := (h.met hlt).2
  have hcur : (w.side r).cur = k := h.cur
  have hchunks := h.head.chunked (by rw [hcur, hc])
  unfold issueChunk
  by_cases hnext : ((w.side r).copied : Int) < (l.transfer (w.side r).cur).chunkSteps ∧
      ((w.side r).copied : Int) - (w.side r).transmitted < l.chunks ∧ (w.side r).copied < (w.peerSlotPtr l r).limit r
  · rw [if_pos hnext]
    have hlimit := hnext.2.2
    have hoff := hchunks.total
    rw [hcur] at hoff ⊢
    have hsteps : (w.side r).copied < (l.transfer k).steps := by
      have := hnext.1
      rw [hcur, hfit.chunkSteps] at this
      omega
    have hroom : (w.side r).copied < (w.side r).transmitted + l.chunks := by omega
    have hsize : (l.transfer k).stepSize (w.side r).totalCopySize = (l.transfer k).length (w.side r).copied := by
      rw [hoff, hfit.stepSize hsteps]
    have hallowed : Allowed l w.trace (chunkEvent l r k (w.side r).copied) := by
      refine ⟨?_, hsteps, rfl, h.fifoFree hc hmet hlimit⟩
      have hne := l.planOf_ne k
      cases hplan : l.planOf k <;> rw [hplan] at hc hne <;> first | rfl | (exact absurd rfl hne) | cases hc
    have hevent : Event.chunk r k (w.side r).copied (w.side r).totalCopySize (toSize ((l.transfer k).length (w.side r).copied))
        ((l.transfer k).chunkSize * ((w.side r).copied % l.chunks)) = chunkEvent l r k (w.side r).copied := by
      rw [hfit.toSize_length, hoff, min_eq_left (Chunking.lt_steps_iff.1 hsteps).le]
      rfl
    rw [l.and_sendStepMask, hsize]
    dsimp only
    rw [hevent]
    cases hm : ans.deviceMemcpy.accepted with
    | false => simpa [Body.andThen, check, hm] using h.ended hm
    | true =>
      cases hr : ans.eventRecord.accepted with
      | false =>
        have hended := h.ended_log hr hallowed (by simp [chunkEvent, r.peer_ne.symm])
        simpa [Body.andThen, check, hm, hr] using hended
      | true =>
        have hmove := h.move (o := w.slotPtr l r) (g := w.regInfoPtr l r)
          (s := { w.side r with
            copied := (w.side r).copied + 1
            totalCopySize := Chunking.addSize (w.side r).totalCopySize ((l.transfer k).length (w.side r).copied)
            events := update (w.side r).events ((w.side r).copied % l.chunks) (k, (w.side r).copied) })
          (t := [chunkEvent l r k (w.side r).copied])
          ⟨rfl, rfl, rfl, rfl, rfl⟩ rfl h.awake ?_ hmet ?_ ?_ (by simp [chunkEvent, r.peer_ne]) (h.inv.allowed.concat hallowed)
        · simpa [Body.andThen, check, hm, hr, World.log, World.setSide, World.act, World.slotPtr, World.regInfoPtr, hcur]
            using hmove
        · refine h.head.move h.plan_ne rfl rfl hnot (subset_append_left _ _) (fun c hc' => ?_) (fun _ => ?_)
          · rw [hcur, hc] at hc'
            cases hc'
          · have := hchunks.issue (by rwa [hcur]) (by rwa [hcur]) hroom
            simpa only [hcur] using this
        · intro _
          have hlim := h.limit hc hmet hlimit
          have hr := h.inv.room r h.live hmet (by rw [hcur, hc])
          cases r with
          | send => exact hlim
          | recv => exact hr
        · intro k' j o n f hmem
          rcases mem_append.1 hmem with hmem | hmem
          · rcases h.inv.written r h.awake k' j o n f hmem with hover | ⟨hk, hj⟩
            · exact .inl hover
            · exact .inr ⟨hk, Nat.lt_succ_of_lt hj⟩
          · obtain ⟨-, rfl, rfl, -⟩ := Event.chunk.inj (mem_singleton.1 hmem)
            exact .inr ⟨hcur.symm, Nat.lt_succ_self _⟩
  · rw [if_neg hnext]
    exact h

theorem queryChunk_spec (ans : Answers) (hc : copier (l.planOf k) = none) :
    Body.Post (Planned C r k) (Ended C r) (queryChunk l r ans w) := by
  have hcur : (w.side r).cur = k := h.cur
  have hchunks := h.head.chunked (by rw [hcur, hc])
  unfold queryChunk
  by_cases hlt : (w.side r).transmitted < (w.side r).copied
  · rw [if_pos hlt, l.and_sendStepMask, hchunks.event _ le_rfl hlt]
    have hsteps := hchunks.steps
    rw [hcur] at hsteps ⊢
    obtain ⟨hnot, hmet⟩ := h.met (by omega)
    have hallowed : Allowed l w.trace (.chunkDone r k (w.side r).transmitted) := by
      have := hchunks.issued _ hlt
      rwa [hcur] at this
    unfold query
    by_cases hs : ans.eventQuery = .success
    · rw [if_pos hs]
      have hphase : ∀ n, SamePhase l w r { w.side r with transmitted := n } ((w.slotPtr l r).advance n l.chunks r) := by
        intro n
        cases r <;> exact ⟨rfl, rfl, rfl, rfl, rfl⟩
      have hmove := h.move (g := w.regInfoPtr l r) (t := [.chunkDone r k (w.side r).transmitted])
        (hphase ((w.side r).transmitted + 1)) rfl h.awake ?_ hmet ?_ ?_ (by simp) (h.inv.allowed.concat hallowed)
      · simpa [World.log, World.setSide, World.act, World.setSlotPtr, World.setSlot, World.regInfoPtr, hcur] using hmove
      · refine h.head.move h.plan_ne rfl rfl ?_ (subset_append_left _ _) (fun c hc' => ?_) (fun _ => ?_)
        · rw [(hphase _).slotDone, hnot]
        · rw [hcur, hc] at hc'
          cases hc'
        · have := hchunks.settle hlt
          simpa only [hcur] using this
      · intro _
        have hr := h.inv.room r h.live hmet (by rw [hcur, hc])
        cases r with
        | send => exact hr
        | recv =>
          change (w.side .send).copied ≤ (w.side .recv).transmitted + 1 + l.chunks
          change (w.side .send).copied ≤ (w.side .recv).transmitted + l.chunks at hr
          omega
      · intro k' j o n f hmem
        exact h.inv.written r h.awake k' j o n f (by simpa using hmem)
    · rw [if_neg hs]
      split
      · exact h
      · rename_i hp
        exact h.ended (by simp [Result.accepted, hs, hp])
  · rw [if_neg hlt]
    exact h

theorem Planned.moved (hall : (w.side r).transmitted = (l.transfer k).steps) (hrecv : r = .recv) : Moved l w.trace k := by
  have hcur : (w.side r).cur = k := h.cur
  cases hc : copier (l.planOf k) with
  | some c =>
    have hd := h.head.direct c (by rw [hcur, hc])
    rw [moved_of_copier hc]
    intro hne
    have hsteps : 0 < (l.transfer k).steps := Chunking.lt_steps_iff.2 (by simpa [Chunking.offset] using Nat.pos_of_ne_zero hne)
    have := hd.done (by omega)
    rwa [hcur] at this
  | none =>
    have hchunks := h.head.chunked (by rw [hcur, hc])
    rw [moved_of_fifo hc]
    intro b hb
    obtain ⟨j, hj, hlow, hhigh⟩ := Chunking.exists_chunk hb
    have hdone := hchunks.done j (by rwa [hall])
    rw [hrecv] at hdone hcur
    rw [hcur] at hdone
    exact ⟨j, hlow, hhigh, hdone⟩

theorem Planned.all (hge : (l.transfer k).steps ≤ (w.side r).transmitted) : (w.side r).transmitted = (l.transfer k).steps := by
  have hcur : (w.side r).cur = k := h.cur
  refine le_antisymm ?_ hge
  cases hc : copier (l.planOf k) with
  | some c =>
    rcases (h.head.direct c (by rw [hcur, hc])).transmitted with hzero | hall
    · omega
    · rw [hcur] at hall
      exact hall.le
  | none =>
    have hchunks := h.head.chunked (by rw [hcur, hc])
    have hsteps := hchunks.steps
    rw [hcur] at hsteps
    exact hchunks.le.trans hsteps

end Planned

end Moves

end FlagCX.P2pShm
