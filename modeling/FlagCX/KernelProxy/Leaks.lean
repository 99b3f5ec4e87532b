import FlagCX.KernelProxy.Posts
import FlagCX.KernelProxy.Visibility

/-!
# Posts and polls leak nothing

* `Tidy` : the invariant of the calls.
* `posts_leak_nothing` : every run keeps the books and the cells of posted PutValues.
-/

namespace FlagCX.KernelProxy
open Function Option

open Net Lib Transport

/-- `staged i` is the cell that the request posted in slot `i` handed to the adaptor, with its value. -/
structure Run where
  kernel : Kernel
  buffer : Nat → UInt64
  staged : Nat → Option (Nat × UInt64)

/-- The calls on one kernel, and the PutValues of the other contexts. -/
inductive Call where
  | track (flags : UInt32)
  | immediate (submit : SubmitContext) (result : Result)
  | post (comm : Comm) (a : PostArgs) (answer : PostAnswer)
  | poll (canTest : Bool) (first second : Nat → Kernel.Answers)
  | elsewhere (contextId stagingSlot : Int) (value : UInt64)

namespace Run

def start (k : Kernel) (buffer : Nat → UInt64) : Run := ⟨k, buffer, fun _ => none⟩

def record (r : Run) (k' : Kernel) (cell : Option (Nat × UInt64)) (i : Nat) : Option (Nat × UInt64) :=
  if (r.kernel.transport.requests i).state = .free ∧ (k'.transport.requests i).state ≠ .free then cell else r.staged i

def step (staging : Staging) (contextId : Int) (r : Run) : Call → Option Run
  | .track flags => some { r with kernel := { r.kernel with transport := (r.kernel.transport.trackNext flags).2 } }
  | .immediate submit result => some { r with kernel := { r.kernel with transport := { r.kernel.transport with
      scoreboard := (trackCompletion r.kernel.transport.scoreboard submit result).2.2 } } }
  | .post comm a answer =>
    if a.contextId ≠ contextId then none
    else
      let out := r.kernel.post comm staging r.buffer a answer
      some ⟨out.kernel, out.buffer, r.record out.kernel (cellOf out.call a.putValue)⟩
  | .poll canTest first second => some { r with kernel := (r.kernel.poll canTest first second).1 }
  | .elsewhere other stagingSlot value =>
    if other = contextId then none
    else
      match staging.offset other stagingSlot with
      | none => some r
      | some o => some { r with buffer := Function.update r.buffer o value }

end Run

/-- The books are kept, no request is reserved, and the cell of every posted PutValue holds its value. -/
structure Tidy (staging : Staging) (contextId : Int) (r : Run) : Prop where
  books : Books (-1) r.kernel
  settled : ∀ i < r.kernel.transport.capacity, (r.kernel.transport.requests i).state ≠ .reserved
  cells : ∀ i < r.kernel.transport.capacity, (r.kernel.transport.requests i).state ≠ .free →
    ((r.kernel.transport.requests i).stagingSlot = -1 ∧ r.staged i = none) ∨
    ∃ o v, staging.offset contextId (r.kernel.transport.requests i).stagingSlot = some o ∧ r.staged i = some (o, v) ∧
      r.buffer o = v

section Tidy
variable {staging : Staging} {contextId : Int} {r r' : Run}

section

variable (h : Tidy staging contextId r)
include h

theorem Tidy.shrink {k' : Kernel} {buffer' : Nat → UInt64} (hb : Books (-1) k')
    (hcap : k'.transport.capacity = r.kernel.transport.capacity)
    (hstays : ∀ i, (k'.transport.requests i).state ≠ .free → Stays (r.kernel.transport.requests i) (k'.transport.requests i))
    (hbuffer : ∀ slot o, staging.offset contextId slot = some o → buffer' o = r.buffer o) :
    Tidy staging contextId { r with kernel := k', buffer := buffer' } := by
  refine ⟨hb, fun i hi hres => ?_, fun i hi hlive => ?_⟩
  · have hs := hstays i (by rw [hres]; exact nofun)
    exact h.settled i (hcap ▸ hi) (hs.state ▸ hres)
  · have hs := hstays i hlive
    rw [hs.stagingSlot]
    refine (h.cells i (hcap ▸ hi) (hs.state ▸ hlive)).imp_right ?_
    rintro ⟨o, v, hoff, hstaged, hv⟩
    exact ⟨o, v, hoff, hstaged, (hbuffer _ o hoff).trans hv⟩

theorem Tidy.scoreboard {t' : Transport} (hs : Sound t') (hreq : t'.requests = r.kernel.transport.requests)
    (hcap : t'.capacity = r.kernel.transport.capacity) (hcount : t'.nativeInflight = r.kernel.transport.nativeInflight) :
    Tidy staging contextId { r with kernel := { r.kernel with transport := t' } } := by
  refine h.shrink (h.books.congr hs (fun i => by rw [hreq]) (fun i => by rw [hreq]) hcap hcount) hcap (fun i _ => ?_)
    fun _ _ _ => rfl
  rw [hreq]
  exact ⟨rfl, rfl, rfl⟩

theorem Tidy.apart {s o : Nat} (hfree : r.kernel.stagingInUse s = false) (hoff : staging.offset contextId s = some o)
    {i : Nat} (hi : i < r.kernel.transport.capacity) (hlive : (r.kernel.transport.requests i).state ≠ .free) {o' : Nat}
    (hoff' : staging.offset contextId (r.kernel.transport.requests i).stagingSlot = some o') : o' ≠ o := by
  rintro rfl
  have hslot := (staging.offset_inj hoff' hoff).2
  rw [(h.books.used s).2 (.inr ⟨i, hi, hlive, hslot⟩)] at hfree
  cases hfree

theorem Tidy.post {comm : Comm} {a : PostArgs} (hctx : a.contextId = contextId) (answer : PostAnswer) {out : Kernel.Outcome}
    (hout : r.kernel.post comm staging r.buffer a answer = out) :
    Tidy staging contextId ⟨out.kernel, out.buffer, r.record out.kernel (cellOf out.call a.putValue)⟩ := by
  have hspec := Kernel.post_spec h.books comm staging r.buffer a answer
  rw [hout] at hspec
  -- the cells of the requests that stay are not written
  have hkeep : ∀ i < r.kernel.transport.capacity, (r.kernel.transport.requests i).state ≠ .free → ∀ o,
      staging.offset contextId (r.kernel.transport.requests i).stagingSlot = some o → out.buffer o = r.buffer o := by
    intro i hi hlive o hoff
    rcases hspec.written with ⟨-, hb⟩ | ⟨s, o', hfree, hoff', -, hb⟩
    · rw [hb]
    · rw [hctx] at hoff'
      rw [hb, update_of_ne (h.apart hfree hoff' hi hlive hoff)]
  have hstay : ∀ i < r.kernel.transport.capacity, (r.kernel.transport.requests i).state ≠ .free →
      out.kernel.transport.requests i = r.kernel.transport.requests i →
      ((out.kernel.transport.requests i).stagingSlot = -1 ∧ r.record out.kernel (cellOf out.call a.putValue) i = none) ∨
      ∃ o v, staging.offset contextId (out.kernel.transport.requests i).stagingSlot = some o ∧
        r.record out.kernel (cellOf out.call a.putValue) i = some (o, v) ∧ out.buffer o = v := by
    intro i hi hlive hsame
    rw [hsame, Run.record, if_neg fun hnew => hlive hnew.1]
    refine (h.cells i hi hlive).imp_right ?_
    rintro ⟨o, v, hoff, hstaged, hv⟩
    exact ⟨o, v, hoff, hstaged, (hkeep i hi hlive o hoff).trans hv⟩
  cases hposted : out.posted with
  | false =>
    obtain ⟨hreq, hcap, -⟩ := (hspec.refused hposted).transport.requests
    refine ⟨hspec.books, fun i hi => ?_, fun i hi hlive => ?_⟩
    · rw [hreq]
      exact h.settled i (hcap ▸ hi)
    · exact hstay i (hcap ▸ hi) (hreq ▸ hlive) (congrFun hreq i)
  | true =>
    obtain ⟨i, held, hp, hnone, hwritten⟩ := hspec.posted hposted
    refine ⟨hspec.books, fun j hj => ?_, fun j hj hlive => ?_⟩
    · by_cases hji : j = i
      · rw [hji, hp.posted]
        exact nofun
      · rw [hp.other j hji]
        exact h.settled j (hp.capacity ▸ hj)
    · by_cases hji : j = i
      · show ((out.kernel.transport.requests j).stagingSlot = -1 ∧ r.record out.kernel _ j = none) ∨ ∃ o v, _ ∧
          r.record out.kernel _ j = some (o, v) ∧ _
        rw [hji, hp.staging, Run.record, if_pos ⟨hp.free, by rw [hp.posted]; exact nofun⟩]
        rcases hwritten with ⟨hcell, -⟩ | ⟨o, hoff, hcell, hb⟩
        · exact .inl ⟨hnone hcell, hcell⟩
        · exact .inr ⟨o, a.putValue, hctx ▸ hoff, hcell, (congrFun hb o).trans (update_self ..)⟩
      · exact hstay j (hp.capacity ▸ hj) (hp.other j hji ▸ hlive) (hp.other j hji)

theorem Tidy.step {c : Call} (hstep : r.step staging contextId c = some r') : Tidy staging contextId r' := by
  cases c with
  | track flags =>
    cases hstep
    refine h.scoreboard (h.books.sound.moves (trackNext_moves False False _ flags)) ?_ ?_ ?_ <;>
    · rw [trackNext]
      split_ifs <;> rfl
  | immediate submit result =>
    cases hstep
    exact h.scoreboard (h.books.sound.keep rfl rfl rfl) rfl rfl rfl
  | post comm a answer =>
    rw [Run.step] at hstep
    split_ifs at hstep with hctx
    cases hstep
    exact h.post (not_not.1 hctx) answer rfl
  | poll canTest first second =>
    cases hstep
    obtain ⟨hb, hs⟩ := h.books.poll canTest first second
    exact h.shrink hb hs.capacity hs.live fun _ _ _ => rfl
  | elsewhere other stagingSlot value =>
    rw [Run.step] at hstep
    split_ifs at hstep with hother
    cases hoff : staging.offset other stagingSlot with
    | none =>
      rw [hoff] at hstep
      cases hstep
      exact h
    | some o =>
      rw [hoff] at hstep
      cases hstep
      refine h.shrink h.books rfl (fun _ _ => ⟨rfl, rfl, rfl⟩) fun slot o' hoff' => update_of_ne ?_ _ _
      rintro rfl
      exact hother (staging.offset_inj hoff hoff').1

end

end Tidy

section

variable {capacity stagingSlotCount : UInt32} {generation orderingKey : UInt64} {groups : Nat → ReleaseGroup} {k : Kernel}
  (hinit : Kernel.init capacity stagingSlotCount generation orderingKey groups = .ok k)
include hinit

theorem Tidy.start (buffer : Nat → UInt64) : Tidy staging contextId (Run.start k buffer) := by
  obtain ⟨hbooks, hfree, -⟩ := books_init hinit
  refine ⟨hbooks, fun i _ hres => ?_, fun i _ hlive => absurd (hfree i) hlive⟩
  cases (hfree i).symm.trans hres

/-- **Posts and polls leak nothing, and a PutValue keeps its cell.** -/
theorem posts_leak_nothing (staging : Staging) (contextId : Int) (buffer : Nat → UInt64) {r : Run}
    (hr : Reach (Run.step staging contextId) (fun _ _ => True) (Run.start k buffer) r) :
    (∀ s : Nat, r.kernel.stagingInUse s = true ↔ ∃! i, Holds r.kernel.transport i s) ∧
    r.kernel.transport.nativeInflight = postedCount r.kernel.transport ∧
    (∀ comm a answer, (r.kernel.post comm staging r.buffer a answer).posted = false →
      Untouched a.peer r.kernel (r.kernel.post comm staging r.buffer a answer).kernel) ∧
    ∀ i < r.kernel.transport.capacity, (r.kernel.transport.requests i).state = .posted →
      (r.kernel.transport.requests i).stagingSlot ≠ -1 →
      ∃ o v, r.staged i = some (o, v) ∧ r.buffer o = v ∧ ∀ comm a answer, a.contextId = contextId → ∀ o' v',
          cellOf (r.kernel.post comm staging r.buffer a answer).call a.putValue = some (o', v') → o' ≠ o := by
  have htidy : Tidy staging contextId r :=
    hr.invariant (I := Tidy staging contextId) (.start hinit buffer) fun _ _ _ h _ hstep => h.step hstep
  have hbooks := htidy.books
  refine ⟨fun s => ?_, hbooks.inflight, fun comm a answer => (Kernel.post_spec hbooks comm staging r.buffer a answer).refused,
    fun i hi hposted hslot => ?_⟩
  · rw [hbooks.used s]
    constructor
    · rintro (hneg | ⟨i, hi⟩)
      · omega
      · exact ⟨i, hi, fun j hj => hbooks.apart j i s (Int.natCast_nonneg s) hj hi⟩
    · rintro ⟨i, hi, -⟩
      exact .inr ⟨i, hi⟩
  · have hlive : (r.kernel.transport.requests i).state ≠ .free := by rw [hposted]; exact nofun
    obtain ⟨hneg, -⟩ | ⟨o, v, hoff, hstaged, hv⟩ := htidy.cells i hi hlive
    · exact absurd hneg hslot
    refine ⟨o, v, hstaged, hv, fun comm a answer hctx o' v' hcell => ?_⟩
    rcases (Kernel.post_spec hbooks comm staging r.buffer a answer).written with ⟨hnone, -⟩ | ⟨s, o₁, hfree, hoff', hcell', -⟩
    · rw [hnone] at hcell
      cases hcell
    · rw [hcell'] at hcell
      cases hcell
      exact (htidy.apart hfree (hctx ▸ hoff') hi hlive hoff).symm

end

def twoCells : Kernel := ⟨twoSlots, fun _ => false, 2, 0⟩

def twoContexts : Staging := ⟨2, 2, 1, 5, by decide, by decide⟩

/-- Everything is there, and GETs are to be flushed. -/
def anyComm : Comm :=
  { rmaProxy := true, netAdaptor := true, oneSideHandleCount := 1, oneSideHandles := fun _ => true, contextSendComms := true
    nContexts := 3, sendComm := fun _ _ => true, recvComm := fun _ => some 0, gdrReadRequiresFlush := fun _ => true
    iput := true, iget := true, iputSignal := true, stagingHandle := true, stagingBuffer := true }

def eightBytes (type : RmaType) (value : UInt64) : PostArgs := ⟨⟨0, 0, 1, 1, 0⟩, 1, type, 0, 0, 64, 8, 0, 0, 0, 0, value⟩

/-- Two PutValues, one accepted and one refused, and a PutValue of the other context. -/
def putValues : List Call :=
  [.post anyComm (eightBytes .putValue 7) ⟨.inProgress, some 3⟩, .post anyComm (eightBytes .putValue 8) ⟨.remoteError, none⟩,
    .elsewhere 1 0 9]

theorem posts_leak_nothing_twoCells :
    ∃ r, exec (Run.step twoContexts 0) (Run.start twoCells fun _ => 0) putValues = some r ∧
      (r.kernel.stagingInUse 0 = true ∧ ∃! i, Holds r.kernel.transport i 0) ∧ r.staged 0 = some (8, 7) ∧ r.buffer 8 = 7 := by
  have hsome : ((exec (Run.step twoContexts 0) (Run.start twoCells fun _ => 0) putValues).map fun r =>
      ((r.kernel.stagingInUse 0, (r.kernel.transport.requests 0).state, (r.kernel.transport.requests 0).stagingSlot),
        r.staged 0, r.kernel.transport.capacity)) = some ((true, .posted, 0), some (8, 7), 2) := by decide
  obtain ⟨r, hs, he⟩ := map_eq_some_iff.1 hsome
  simp only [Prod.mk.injEq] at he
  obtain ⟨⟨huse, hposted, hslot⟩, hstaged, hcap⟩ := he
  obtain ⟨hown, -, -, hcells⟩ := posts_leak_nothing (show Kernel.init 2 2 1 0 _ = .ok twoCells from rfl) twoContexts 0 (fun _ => 0)
    (Reach.of_exec (fun _ _ _ => trivial) hs)
  obtain ⟨o, v, hov, hv, -⟩ := hcells 0 (by rw [hcap]; decide) hposted (by rw [hslot]; decide)
  rw [hstaged] at hov
  cases hov
  exact ⟨r, hs, ⟨huse, (hown 0).1 huse⟩, hstaged, hv⟩

/-- A refused GET leaves a domain initialised that was not in use. -/
theorem refused_get_opens_domain :
    Kernel.init 2 2 1 0 (fun _ => ⟨0, 0, .opened, 0, 0, false, .success⟩) = .ok twoCells ∧
      (twoCells.post anyComm twoContexts (fun _ => 0) (eightBytes .get 0) ⟨.remoteError, none⟩).posted = false ∧
      (twoCells.post anyComm twoContexts (fun _ => 0) (eightBytes .get 0) ⟨.remoteError, none⟩).kernel.transport.domains 0 ≠
        twoCells.transport.domains 0 := by
  refine ⟨rfl, ?_, ?_⟩
  · decide
  · decide

end FlagCX.KernelProxy
