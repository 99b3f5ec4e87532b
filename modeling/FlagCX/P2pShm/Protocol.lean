import FlagCX.Lib.History
import FlagCX.Lib.Window
import FlagCX.P2pShm.Slots

/-!
# The invariant of the slot protocol

* `Allowed`  : what must have happened before each thing that a proxy does.
* `Over`, `Live`, `Fin` : how far a side is with an operation. A side is live while its slot carries the hash of the operation
  at its head.
* `Inv`      : the joint invariant of the two sides.
* `Inv.act`  : the step lemma for the parts of a call that keep the phases.
-/

namespace FlagCX.P2pShm
open Lib Function List

/-! ## What is allowed -/

/-- Every byte of operation `k` has been copied: in chunks out of the FIFO, or at once by the side that copies. -/
def Moved (l : Link) (pre : List Event) (k : Nat) : Prop :=
  let t := l.transfer k
  match copier (l.planOf k) with
  | some c => t.size ≠ 0 → .directDone c k ∈ pre
  | none => ∀ b < t.size, ∃ j, t.offset j ≤ b ∧ b < t.offset j + t.length j ∧ .chunkDone .recv k j ∈ pre

/-- The copy of chunk `j` of operation `k`: its own bytes, to or from its own place in the FIFO. -/
def chunkEvent (l : Link) (r : Role) (k j : Nat) : Event :=
  let t := l.transfer k
  .chunk r k j (t.offset j) (t.length j) (t.chunkSize * (j % l.chunks))

/-- A chunk is written to the FIFO when the receiver has copied out everything that was written before to its place, or for
another operation. It is read once the sender's copy is complete, and while nothing else was written to its place since. -/
def FifoFree (l : Link) (pre : List Event) (k j : Nat) : Role → Prop
  | .send => ∀ k' j' o n f, .chunk .send k' j' o n f ∈ pre → k' ≠ k ∨ f = (l.transfer k).chunkSize * (j % l.chunks) →
      .chunkDone .recv k' j' ∈ pre
  | .recv => .chunkDone .send k j ∈ pre ∧ ∀ old new, pre = old ++ chunkEvent l .send k j :: new →
      ∀ k' j' o n f, .chunk .send k' j' o n f ∈ new → k' = k ∧ f ≠ (l.transfer k).chunkSize * (j % l.chunks)

def Allowed (l : Link) (pre : List Event) : Event → Prop
  | .reset _ k => ∀ j < k, .finished .send j ∈ pre ∧ .finished .recv j ∈ pre
  | .planned _ k p => p = l.planOf k
  | .chunk r k j offset length fifo =>
    l.planOf k = .fifo ∧ j < (l.transfer k).steps ∧ .chunk r k j offset length fifo = chunkEvent l r k j ∧
      FifoFree l pre k j r
  | .chunkDone r k j => chunkEvent l r k j ∈ pre
  | .direct r k addr size =>
    copier (l.planOf k) = some r ∧ addr = ((l.transfer k).registration r.peer).rmtAddr ∧ size = (l.transfer k).size
  | .directDone r k => ∃ addr size, .direct r k addr size ∈ pre
  | .finished r k => r = .recv → Moved l pre k
  | .reported _ k => .finished .send k ∈ pre ∧ .finished .recv k ∈ pre ∧ Moved l pre k

section Moved
variable {l : Link} {pre pre' : List Event} {k : Nat}

theorem moved_of_copier {c : Role} (hc : copier (l.planOf k) = some c) :
    Moved l pre k ↔ ((l.transfer k).size ≠ 0 → .directDone c k ∈ pre) := by
  simp only [Moved, hc]

theorem moved_of_fifo (hc : copier (l.planOf k) = none) : Moved l pre k ↔ ∀ b < (l.transfer k).size,
    ∃ j, (l.transfer k).offset j ≤ b ∧ b < (l.transfer k).offset j + (l.transfer k).length j ∧
      .chunkDone .recv k j ∈ pre := by
  simp only [Moved, hc]

theorem Moved.mono (h : Moved l pre k) (hsub : pre ⊆ pre') : Moved l pre' k := by
  cases hc : copier (l.planOf k) with
  | some c =>
    rw [moved_of_copier hc] at *
    exact fun hne => hsub (h hne)
  | none =>
    rw [moved_of_fifo hc] at *
    intro b hb
    obtain ⟨j, hj, hj', hdone⟩ := h b hb
    exact ⟨j, hj, hj', hsub hdone⟩

theorem Moved.chunkDone (h : Moved l pre k) (hc : copier (l.planOf k) = none) {j : Nat} (hj : j < (l.transfer k).steps) :
    .chunkDone .recv k j ∈ pre := by
  have hlt := Chunking.lt_steps_iff.1 hj
  have hpos := (l.transfer k).chunkSize_pos
  have hin : (l.transfer k).offset j ≤ (l.transfer k).offset j ∧
      (l.transfer k).offset j < (l.transfer k).offset j + (l.transfer k).length j := by
    unfold Chunking.length
    omega
  obtain ⟨i, hi, hi', hdone⟩ := (moved_of_fifo hc).1 h _ hlt
  rwa [Chunking.chunk_unique hin ⟨hi, hi'⟩] at hdone

end Moved

/-! ## Phases -/

section Phases
variable (l : Link) (w : World) (r : Role)

/-- The side has reported operation `k`. -/
def Over (k : Nat) : Prop := k < (w.side r).cur ∨ k = (w.side r).cur ∧ (w.side r).done = true

def Live : Prop := (w.side r).done = false ∧ (w.slotPtr l r).opHash = l.hash r (w.side r).cur

/-- The side has finished operation `k`. -/
def Fin (k : Nat) : Prop := Over w r k ∨ k = (w.side r).cur ∧ Live l w r ∧ (w.slotPtr l r).done = true

def Met : Prop := (w.side r.peer).cur = (w.side r).cur ∧ Live l w r.peer

end Phases

/-! ## The invariant -/

/-- The fields of the arguments while the plan is pending. -/
structure Side.Idle (s : Side) : Prop where
  plan : s.p2pPlan = .pending
  copied : s.copied = 0
  transmitted : s.transmitted = 0
  total : s.totalCopySize = 0

/-- How far a side is with the copy of a whole message, made by `c`. -/
structure Direct (l : Link) (r c : Role) (s : Side) (g : RegInfo) (trace : List Event) : Prop where
  copied : s.copied = 0 ∨ s.copied = (l.transfer s.cur).steps
  transmitted : s.transmitted = 0 ∨ s.transmitted = (l.transfer s.cur).steps
  le : s.transmitted ≤ s.copied
  issued : s.copied ≠ 0 → r = c → s.events 0 = (s.cur, 0) ∧ ∃ addr size, .direct c s.cur addr size ∈ trace
  waited : r ≠ c → s.transmitted = s.copied
  done : s.transmitted ≠ 0 → .directDone c s.cur ∈ trace
  flag : s.transmitted ≠ 0 → r = c → g.copyDone = true

structure Chunks (l : Link) (r : Role) (s : Side) (o : SyncSlot) (trace : List Event) : Prop where
  le : s.transmitted ≤ s.copied
  steps : s.copied ≤ (l.transfer s.cur).steps
  room : s.copied ≤ s.transmitted + l.chunks
  total : s.totalCopySize = min ((l.transfer s.cur).offset s.copied) (l.transfer s.cur).size
  slot : o.advance s.transmitted l.chunks r = o
  event : ∀ j, s.transmitted ≤ j → j < s.copied → s.events (j % l.chunks) = (s.cur, j)
  issued : ∀ j < s.copied, chunkEvent l r s.cur j ∈ trace
  done : ∀ j < s.transmitted, .chunkDone r s.cur j ∈ trace

/-- What holds of the operation at the head of a live side, of its slot and its offer. -/
structure Head (l : Link) (r : Role) (s : Side) (o : SyncSlot) (g : RegInfo) (trace : List Event) : Prop where
  offered : g.offerReady = true → g.publish ((l.transfer s.cur).registration r) = g
  pending : s.p2pPlan = .pending → s.Idle ∧ o.done = false
  planned : s.p2pPlan ≠ .pending → s.p2pPlan = l.planOf s.cur ∧ g.offerReady = true
  finished : o.done = true → s.transmitted = (l.transfer s.cur).steps
  copyDone : g.copyDone = true → copier (l.planOf s.cur) = some r ∧ .directDone r s.cur ∈ trace
  direct : ∀ c, copier (l.planOf s.cur) = some c → Direct l r c s g trace
  chunked : copier (l.planOf s.cur) = none → Chunks l r s o trace

/-- The sender is at most a FIFO ahead of the receiver; `s` are the arguments of the side `r`, `p` those of its peer. -/
def Room (l : Link) (r : Role) (s p : Side) : Prop :=
  match r with
  | .send => s.copied ≤ p.transmitted + l.chunks
  | .recv => p.copied ≤ s.transmitted + l.chunks

theorem room_peer {l : Link} {r : Role} {s p : Side} : Room l r.peer p s ↔ Room l r s p := by
  cases r <;> rfl

/-- When an operation, `k + 1`, is in conflict with the one before: its slot may not be taken while the peer is at that. -/
structure Conflict (l : Link) where
  rel : Role → Nat → Prop
  of_hash : ∀ r k, l.hash r (k + 1) = l.hash r k → rel r k

/-- The joint invariant. `along` : a side reports an operation after the other has finished it, and `told` is how it knows;
`joined` : an offer is made when both sides have their slots, and `kept` until the slot is taken again; `distinct` : a side
that is ahead is not in conflict with the operation of its peer; `room` : it is at most a FIFO ahead. -/
structure Inv {l : Link} (C : Conflict l) (w : World) : Prop where
  idle : ∀ r, ¬ Live l w r → (w.side r).done = false → (w.side r).Idle
  free : ∀ r j, (w.slots (l.idx r j)).opHash = freeHash ∨ Live l w r ∧ l.idx r j = l.idx r (w.side r).cur
  head : ∀ r, Live l w r → Head l r (w.side r) (w.slotPtr l r) (w.regInfoPtr l r) w.trace
  along : ∀ r k, Over w r k → Fin l w r.peer k
  told : ∀ r, Live l w r → ((w.slotPtr l r).peerDone = true ↔ Fin l w r.peer (w.side r).cur)
  joined : ∀ r, Live l w r → (w.regInfoPtr l r).offerReady = true → Over w r.peer (w.side r).cur ∨ Met l w r
  kept : ∀ r k, Over w r k → ¬ Over w r.peer k →
    Live l w r ∧ l.idx r k = l.idx r (w.side r).cur ∨ (w.regInfos (l.idx r k)).offerReady = true
  distinct : ∀ r k, (w.side r).cur = k + 1 → Live l w r → ¬ Over w r.peer k → ¬ C.rel r k
  room : ∀ r, Live l w r → Met l w r → copier (l.planOf (w.side r).cur) = none → Room l r (w.side r) (w.side r.peer)
  finished : ∀ r k, Fin l w r k → .finished r k ∈ w.trace
  written : ∀ r, (w.side r).halted = false → ∀ k j o n f, .chunk r k j o n f ∈ w.trace →
    Over w r k ∨ k = (w.side r).cur ∧ j < (w.side r).copied
  allowed : Justified (Allowed l) w.trace

section Basics
variable {l : Link} {C : Conflict l} {w : World} {r : Role} {k : Nat}

theorem Live.not_over (h : Live l w r) : ¬ Over w r (w.side r).cur := by
  unfold Over
  rw [h.1]
  simp

theorem Live.lt_of_over (h : Live l w r) (hk : Over w r k) : k < (w.side r).cur := by
  refine hk.resolve_right fun heq => ?_
  rw [h.1] at heq
  cases heq.2

theorem Over.mono {j : Nat} (h : Over w r k) (hj : j ≤ k) : Over w r j := by
  rcases Nat.lt_or_eq_of_le hj with hlt | rfl
  · unfold Over at *
    omega
  · exact h

theorem Fin.le (h : Fin l w r k) : k ≤ (w.side r).cur := by
  unfold Fin Over at h
  omega

theorem Fin.of_over (h : Over w r k) : Fin l w r k := .inl h

theorem Live.fin_iff (h : Live l w r) : Fin l w r (w.side r).cur ↔ (w.slotPtr l r).done = true := by
  unfold Fin
  have := h.not_over
  tauto

theorem Inv.peer_not_over (h : Inv C w) (hlive : Live l w r) (hnot : (w.slotPtr l r).done = false) :
    ¬ Over w r.peer (w.side r).cur := by
  intro hover
  have hfin := h.along _ _ hover
  rw [Role.peer_peer, hlive.fin_iff, hnot] at hfin
  cases hfin

theorem Inv.fin_of_lt (h : Inv C w) (hk : k < (w.side r).cur) (x : Role) : Fin l w x k := by
  have hover : Over w r k := .inl hk
  rcases Role.eq_or_eq_peer r x with rfl | rfl
  · exact .of_over hover
  · exact h.along _ _ hover

theorem Inv.chunkDone_of_fin (h : Inv C w) (hfin : Fin l w .recv k) {r : Role} {j o n f : Nat}
    (hmem : .chunk r k j o n f ∈ w.trace) : .chunkDone .recv k j ∈ w.trace := by
  obtain ⟨pre, post, htrace, hallowed⟩ := h.allowed.of_mem (h.finished _ _ hfin)
  have hmoved : Moved l w.trace k := (hallowed rfl).mono (by simp [htrace])
  obtain ⟨-, -, -, hplan, hj, -, -⟩ := h.allowed.of_mem hmem
  exact hmoved.chunkDone (by rw [hplan]; rfl) hj

theorem Inv.met (h : Inv C w) (hlive : Live l w r) (hnot : (w.slotPtr l r).done = false)
    (hopen : Fin l w r.peer (w.side r).cur ∨ Met l w r) : Met l w r := by
  rcases hopen with (hover | ⟨hcur, hpeer, -⟩) | hmet
  · exact absurd hover (h.peer_not_over hlive hnot)
  · exact ⟨hcur.symm, hpeer⟩
  · exact hmet

end Basics

/-! ## Parts of a call that keep the phases -/

def World.act (w : World) (l : Link) (r : Role) (s : Side) (o : SyncSlot) (g : RegInfo) (es : List Event) : World where
  slots := update w.slots (l.idx r (w.side r).cur) o
  regInfos := update w.regInfos (l.idx r (w.side r).cur) g
  side := update w.side r s
  trace := w.trace ++ es

section Act
variable {l : Link} {C : Conflict l} {w : World} {r : Role} {s : Side} {o : SyncSlot} {g : RegInfo} {es : List Event}

@[simp] theorem World.act_side_self : (w.act l r s o g es).side r = s := update_self _ _ _

@[simp] theorem World.act_side_peer : (w.act l r s o g es).side r.peer = w.side r.peer := update_of_ne r.peer_ne _ _

theorem World.act_slots_peer (j : Nat) : (w.act l r s o g es).slots (l.idx r.peer j) = w.slots (l.idx r.peer j) :=
  update_of_ne (l.idx_ne r _ j).symm _ _

theorem World.act_regInfos_peer (j : Nat) : (w.act l r s o g es).regInfos (l.idx r.peer j) = w.regInfos (l.idx r.peer j) :=
  update_of_ne (l.idx_ne r _ j).symm _ _

@[simp] theorem World.act_slotPtr_peer : (w.act l r s o g es).slotPtr l r.peer = w.slotPtr l r.peer := by
  rw [slotPtr, act_side_peer, act_slots_peer]
  rfl

@[simp] theorem World.act_regInfoPtr_peer : (w.act l r s o g es).regInfoPtr l r.peer = w.regInfoPtr l r.peer := by
  rw [regInfoPtr, act_side_peer, act_regInfos_peer]
  rfl

theorem World.act_slotPtr_self (hcur : s.cur = (w.side r).cur) : (w.act l r s o g es).slotPtr l r = o := by
  rw [slotPtr, act_side_self, hcur]
  exact update_self _ _ _

theorem World.act_regInfoPtr_self (hcur : s.cur = (w.side r).cur) : (w.act l r s o g es).regInfoPtr l r = g := by
  rw [regInfoPtr, act_side_self, hcur]
  exact update_self _ _ _

/-- The phase of a side is kept: its place in the queue, and what its slot says of it. -/
structure SamePhase (l : Link) (w : World) (r : Role) (s : Side) (o : SyncSlot) : Prop where
  cur : s.cur = (w.side r).cur
  done : s.done = (w.side r).done
  opHash : o.opHash = (w.slotPtr l r).opHash
  slotDone : o.done = (w.slotPtr l r).done
  peerDone : o.peerDone = (w.slotPtr l r).peerDone

theorem Head.mono {trace trace' : List Event} (h : Head l r s o g trace) (hsub : trace ⊆ trace') :
    Head l r s o g trace' where
  offered := h.offered
  pending := h.pending
  planned := h.planned
  finished := h.finished
  copyDone hg := ⟨(h.copyDone hg).1, hsub (h.copyDone hg).2⟩
  direct c hc :=
    have hd := h.direct c hc
    { hd with
      issued := fun hne hr => ⟨(hd.issued hne hr).1, let ⟨addr, size, hmem⟩ := (hd.issued hne hr).2; ⟨addr, size, hsub hmem⟩⟩
      done := fun hne => hsub (hd.done hne) }
  chunked hc :=
    have hd := h.chunked hc
    { hd with issued := fun j hj => hsub (hd.issued j hj), done := fun j hj => hsub (hd.done j hj) }

variable (hp : SamePhase l w r s o)
include hp

theorem SamePhase.cur_iff (x : Role) : ((w.act l r s o g es).side x).cur = (w.side x).cur := by
  rcases Role.eq_or_eq_peer r x with rfl | rfl
  · rw [World.act_side_self, hp.cur]
  · rw [World.act_side_peer]

theorem SamePhase.done_iff (x : Role) : ((w.act l r s o g es).side x).done = (w.side x).done := by
  rcases Role.eq_or_eq_peer r x with rfl | rfl
  · rw [World.act_side_self, hp.done]
  · rw [World.act_side_peer]

theorem SamePhase.over_iff (x : Role) (k : Nat) : Over (w.act l r s o g es) x k ↔ Over w x k := by
  rw [Over, Over, hp.cur_iff, hp.done_iff]

theorem SamePhase.live_iff (x : Role) : Live l (w.act l r s o g es) x ↔ Live l w x := by
  rw [Live, Live, hp.cur_iff, hp.done_iff]
  rcases Role.eq_or_eq_peer r x with rfl | rfl
  · rw [World.act_slotPtr_self hp.cur, hp.opHash]
  · rw [World.act_slotPtr_peer]

theorem SamePhase.fin_iff (x : Role) (k : Nat) : Fin l (w.act l r s o g es) x k ↔ Fin l w x k := by
  rw [Fin, Fin, hp.over_iff, hp.live_iff, hp.cur_iff]
  rcases Role.eq_or_eq_peer r x with rfl | rfl
  · rw [World.act_slotPtr_self hp.cur, hp.slotDone]
  · rw [World.act_slotPtr_peer]

theorem SamePhase.met_iff (x : Role) : Met l (w.act l r s o g es) x ↔ Met l w x := by
  rw [Met, Met, hp.cur_iff, hp.cur_iff, hp.live_iff]

end Act

section Moves
variable {l : Link} {C : Conflict l} {w : World} {r : Role} {s : Side} {o : SyncSlot} {g : RegInfo} {es : List Event}

theorem Inv.act (h : Inv C w) (hlive : Live l w r) (hp : SamePhase l w r s o) (hhead : Head l r s o g (w.trace ++ es))
    (hjoined : g.offerReady = true → Over w r.peer s.cur ∨ Met l w r)
    (hroom : Met l w r → copier (l.planOf s.cur) = none → Room l r s (w.side r.peer))
    (hwritten : s.halted = false → ∀ k j o n f, .chunk r k j o n f ∈ w.trace ++ es → Over w r k ∨ k = s.cur ∧ j < s.copied)
    (hother : ∀ k j o n f, .chunk r.peer k j o n f ∉ es)
    (hallowed : Justified (Allowed l) (w.trace ++ es)) : Inv C (w.act l r s o g es) where
  idle x hx hdone := by
    rw [hp.live_iff] at hx
    rw [hp.done_iff] at hdone
    rcases Role.eq_or_eq_peer r x with rfl | rfl
    · exact absurd hlive hx
    · rw [World.act_side_peer]
      exact h.idle _ hx hdone
  free x j := by
    rw [hp.live_iff, hp.cur_iff]
    rcases Role.eq_or_eq_peer r x with rfl | rfl
    · by_cases hj : l.idx x j = l.idx x (w.side x).cur
      · exact .inr ⟨hlive, hj⟩
      · rw [show (w.act l x s o g es).slots (l.idx x j) = w.slots (l.idx x j) from update_of_ne hj _ _]
        exact h.free x j
    · rw [World.act_slots_peer]
      exact h.free _ j
  head x hx := by
    rw [hp.live_iff] at hx
    rcases Role.eq_or_eq_peer r x with rfl | rfl
    · rw [World.act_side_self, World.act_slotPtr_self hp.cur, World.act_regInfoPtr_self hp.cur]
      exact hhead
    · rw [World.act_side_peer, World.act_slotPtr_peer, World.act_regInfoPtr_peer]
      exact (h.head _ hx).mono (subset_append_left _ _)
  along x k hk := by
    rw [hp.over_iff] at hk
    rw [hp.fin_iff]
    exact h.along x k hk
  told x hx := by
    rw [hp.live_iff] at hx
    rw [hp.fin_iff, hp.cur_iff]
    rcases Role.eq_or_eq_peer r x with rfl | rfl
    · rw [World.act_slotPtr_self hp.cur, hp.peerDone]
      exact h.told _ hx
    · rw [World.act_slotPtr_peer]
      exact h.told _ hx
  joined x hx hoffer := by
    rw [hp.live_iff] at hx
    rw [hp.over_iff, hp.met_iff, hp.cur_iff]
    rcases Role.eq_or_eq_peer r x with rfl | rfl
    · rw [World.act_regInfoPtr_self hp.cur] at hoffer
      rw [← hp.cur]
      exact hjoined hoffer
    · rw [World.act_regInfoPtr_peer] at hoffer
      exact h.joined _ hx hoffer
  kept x k hk hnot := by
    rw [hp.over_iff] at hk hnot
    rw [hp.live_iff, hp.cur_iff]
    rcases Role.eq_or_eq_peer r x with rfl | rfl
    · by_cases hidx : l.idx x k = l.idx x (w.side x).cur
      · exact .inl ⟨hlive, hidx⟩
      · refine (h.kept x k hk hnot).imp_right fun hready => ?_
        rwa [show (w.act l x s o g es).regInfos (l.idx x k) = w.regInfos (l.idx x k) from update_of_ne hidx _ _]
    · rw [World.act_regInfos_peer]
      exact h.kept _ k hk hnot
  distinct x k hk hx hnot := by
    rw [hp.cur_iff] at hk
    rw [hp.live_iff] at hx
    rw [hp.over_iff] at hnot
    exact h.distinct x k hk hx hnot
  room x hx hmet hplan := by
    rw [hp.live_iff] at hx
    rw [hp.met_iff] at hmet
    rw [hp.cur_iff] at hplan
    rcases Role.eq_or_eq_peer r x with rfl | rfl
    · rw [World.act_side_self, World.act_side_peer]
      exact hroom hmet (by rwa [hp.cur])
    · have hcur : (w.side r).cur = (w.side r.peer).cur := by rw [← hmet.1, Role.peer_peer]
      rw [World.act_side_peer, Role.peer_peer, World.act_side_self, room_peer]
      exact hroom ⟨hcur.symm, hx⟩ (by rwa [hp.cur, hcur])
  finished x k hk := by
    rw [hp.fin_iff] at hk
    exact mem_append_left _ (h.finished x k hk)
  written x hx k j o' n f hmem := by
    rw [hp.over_iff]
    rcases Role.eq_or_eq_peer r x with rfl | rfl
    · rw [World.act_side_self] at hx ⊢
      exact hwritten hx k j o' n f hmem
    · rw [World.act_side_peer] at hx ⊢
      rcases mem_append.1 hmem with hmem | hmem
      · exact h.written _ hx k j o' n f hmem
      · exact absurd hmem (hother k j o' n f)
  allowed := hallowed

end Moves

end FlagCX.P2pShm
