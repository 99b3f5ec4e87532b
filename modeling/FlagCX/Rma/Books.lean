import FlagCX.Rma.Steps

/-!
# The books of a peer

What a run has published, consumed and completed is read off its log. `Book` ties the ring of a peer, its operation
sequence and its in-progress queue to these lists; it is an invariant of every run (`Reachable.books`).

* `Note.peer`, `view` : the notes about one peer.
* `published`, `consumed`, `completions` : what they say.
* `forall_setPeer`    : a property of every peer and its notes, after a write to one peer.
-/

namespace FlagCX.Rma
open List Function Option

open Net Lib
variable {n : Nat} {c : Config n}

/-! ## The queue size -/

def Config.bits (c : Config n) : Nat := Nat.log2 c.queueSize.toNat

theorem Config.size_eq (c : Config n) : c.queueSize.toNat = 2 ^ c.bits := by
  have hpow := c.pow
  push Not at hpow
  obtain ⟨htwo, hand, -⟩ := hpow
  have hne : c.queueSize.toNat ≠ 0 := by
    have := UInt32.le_iff_toNat_le.1 (UInt32.not_lt.1 (by simpa using htwo))
    simp at this
    omega
  have hsub : (c.queueSize - 1).toNat = c.queueSize.toNat - 1 := UInt32.toNat_sub_of_le _ _ (by
    rw [UInt32.le_iff_toNat_le]
    simp
    omega)
  have hzero : c.queueSize.toNat &&& (c.queueSize.toNat - 1) = 0 := by
    rw [← hsub, ← UInt32.toNat_and, hand]
    rfl
  obtain ⟨k, hk⟩ := (Nat.and_sub_one_eq_zero_iff_isPowerOfTwo hne).1 hzero
  rw [Config.bits, hk, Nat.log2_two_pow]

theorem Config.bits_lt (c : Config n) : c.bits < 31 := by
  have hpow := c.pow
  push Not at hpow
  have hle := UInt32.le_iff_toNat_le.1 (UInt32.not_lt.1 (by simpa using hpow.2.2))
  rw [c.size_eq] at hle
  have hmax : (uint32Max / 2).toNat < 2 ^ 31 := by decide
  exact (Nat.pow_lt_pow_iff_right (by omega)).1 (lt_of_le_of_lt hle hmax)

theorem Config.bits_lt' (c : Config n) : c.bits < 32 := c.bits_lt.trans (by omega)

theorem Config.mask_eq (c : Config n) : c.queueMask.toNat = 2 ^ c.bits - 1 := by
  rw [Config.queueMask, UInt32.toNat_sub_of_le, c.size_eq]
  · rfl
  · rw [UInt32.le_iff_toNat_le, c.size_eq]
    exact Nat.one_le_two_pow

/-! ## Logs -/

def Note.peer : Note n → Fin n
  | .published p _ _ => p
  | .consumed p _ => p
  | .handed p _ _ _ => p
  | .dataDone p _ _ _ _ => p
  | .completed p _ _ _ => p
  | .fired p _ => p
  | .flushPosted p _ _ _ _ _ => p
  | .flushEnded p _ _ _ _ => p
  | .delivered p _ _ => p

def view (p : Fin n) (log : List (Note n)) : List (Note n) := log.filter fun v => v.peer = p

def Note.publishes : Note n → Option Submission
  | .published _ d _ => some d
  | _ => none

def Note.consumes : Note n → Option Submission
  | .consumed _ d => some d
  | _ => none

def Note.completes : Note n → Option (Submission × Result × Result)
  | .completed _ d result tracked => some (d, result, tracked)
  | _ => none

def published (l : List (Note n)) : List Submission := l.filterMap Note.publishes

/-- What left the ring, in order. -/
def consumed (l : List (Note n)) : List Submission := l.filterMap Note.consumes

def completions (l : List (Note n)) : List (Submission × Result × Result) := l.filterMap Note.completes

variable {result : Result}

section Logs
variable (p q : Fin n) (l m : List (Note n))

@[simp] theorem view_append : view p (l ++ m) = view p l ++ view p m := filter_append ..
@[simp] theorem published_append : published (l ++ m) = published l ++ published m := filterMap_append
@[simp] theorem consumed_append : consumed (l ++ m) = consumed l ++ consumed m := filterMap_append
@[simp] theorem completions_append : completions (l ++ m) = completions l ++ completions m := filterMap_append

@[simp] theorem view_nil : view p ([] : List (Note n)) = [] := rfl
@[simp] theorem published_nil : published ([] : List (Note n)) = [] := rfl
@[simp] theorem consumed_nil : consumed ([] : List (Note n)) = [] := rfl
@[simp] theorem completions_nil : completions ([] : List (Note n)) = [] := rfl

variable {p q l m}

theorem view_of_peer (h : ∀ v ∈ m, v.peer = p) : view p m = m := filter_eq_self.2 fun v hv => by simpa using h v hv

theorem view_of_ne (h : ∀ v ∈ m, v.peer = p) (hq : q ≠ p) : view q m = [] := by
  refine filter_eq_nil_iff.2 fun v hv => ?_
  rw [h v hv]
  simpa using hq.symm

theorem mem_view {v : Note n} : v ∈ view p l ↔ v ∈ l ∧ v.peer = p := by simp [view]

theorem mem_published {d : Submission} : d ∈ published (view p l) ↔ ∃ awaits, Note.published p d awaits ∈ l := by
  unfold published
  rw [mem_filterMap]
  constructor
  · rintro ⟨v, hv, hd⟩
    rw [mem_view] at hv
    cases v <;> cases hd
    obtain ⟨hmem, rfl⟩ := hv
    exact ⟨_, hmem⟩
  · rintro ⟨awaits, h⟩
    exact ⟨_, mem_view.2 ⟨h, rfl⟩, rfl⟩

theorem mem_completions {d : Submission} {tracked : Result} :
    (d, result, tracked) ∈ completions (view p l) ↔ Note.completed p d result tracked ∈ l := by
  unfold completions
  rw [mem_filterMap]
  constructor
  · rintro ⟨v, hv, hd⟩
    rw [mem_view] at hv
    cases v <;> cases hd
    obtain ⟨hmem, rfl⟩ := hv
    exact hmem
  · intro h
    exact ⟨_, mem_view.2 ⟨h, rfl⟩, rfl⟩

theorem forall_setPeer {P : Fin n → Peer → List (Note n) → Prop} {x : Core n} {peer : Peer}
    (h : ∀ q, P q (x.peers q) (view q l)) (hm : ∀ v ∈ m, v.peer = p) (hp : P p peer (view p l ++ m)) (q : Fin n) :
    P q ((x.setPeer p peer).peers q) (view q (l ++ m)) := by
  rw [view_append]
  rcases eq_or_ne q p with rfl | hq
  · rw [view_of_peer hm, Core.setPeer_self]
    exact hp
  · rw [view_of_ne hm hq, append_nil]
    show P q (update x.peers p peer q) _
    rw [update_of_ne hq]
    exact h q

end Logs

/-! ## Books -/

/-- A descriptor that no progress step has touched. -/
structure Desc.Fresh (d : Desc) : Prop where
  request : d.request = false
  stage : d.completionStage = .dataPosted
  getSequence : d.getSequence = 0
  data : d.getDataComplete = false

/-- The ring, the operation sequence and the in-progress queue agree with what was published, consumed and completed. -/
structure Book (c : Config n) (peer : Peer) (l : List (Note n)) : Prop where
  ring : Ring c.bits (fun i => (peer.slots i).toSubmission) peer.pi peer.ci (published l) (consumed l).length
  order : consumed l = (published l).take (consumed l).length
  fresh : ∀ i, (peer.slots i).Fresh
  count : peer.opSeq.toNat = (published l).length
  bound : (published l).length < 2 ^ 64 - 1
  numbered : ∀ i d, (published l)[i]? = some d → d.opSeq.toNat = i + 1 ∧ d.sequence = d.opSeq ∧ d.generation = generation
  flight : (consumed l).Perm (peer.inProgress.map (·.toSubmission) ++ (completions l).map (·.1))
  inFlight : peer.inFlight.toNat = peer.inProgress.length
  limit : peer.inProgress.length ≤ c.queueSize.toNat
  room : ∀ e, peer.lock = .admitted e → (published l).length + e.descs.length ≤ (consumed l).length + 2 ^ c.bits

variable {d : Desc}

section Book
variable {peer : Peer} {l : List (Note n)} {ds : List Desc}

section

variable (h : Book c peer l) (hh : Heads c peer ds)
include h hh

theorem Book.heads : ds.map (·.toSubmission) = ((published l).drop (consumed l).length).take ds.length := by
  have hsize := hh.size
  rw [h.ring.size c.bits_lt'] at hsize
  refine ext_getElem? fun k => ?_
  by_cases hk : k < ds.length
  · have hslot := h.ring.slot_at c.bits_lt' c.mask_eq (k := k) (by omega)
    rw [getElem?_map, getElem?_eq_getElem hk, map_some, getElem?_take, if_pos hk,
      getElem?_drop, hslot]
    exact congrArg (some ·.toSubmission) (hh.at_ k ds[k] (getElem?_eq_getElem hk)).symm
  · rw [getElem?_eq_none (by rw [length_map]; omega),
      getElem?_eq_none (by rw [length_take]; omega)]

theorem Book.heads_le : (consumed l).length + ds.length ≤ (published l).length := by
  have hsize := hh.size
  have := h.ring.le
  rw [h.ring.size c.bits_lt'] at hsize
  omega

theorem Heads.fresh : ∀ d ∈ ds, d.Fresh := by
  intro d hd
  obtain ⟨k, hk, rfl⟩ := getElem_of_mem hd
  rw [← hh.at_ k ds[k] (getElem?_eq_getElem hk)]
  exact h.fresh _

theorem Heads.published : ∀ d ∈ ds, d.toSubmission ∈ Rma.published l := by
  intro d hd
  have hmem : d.toSubmission ∈ ds.map (·.toSubmission) := mem_map_of_mem hd
  rw [h.heads hh] at hmem
  exact mem_of_mem_drop (mem_of_mem_take hmem)

end

theorem Book.consumed_published (h : Book c peer l) : ∀ d ∈ consumed l, d ∈ published l := by
  intro d hd
  rw [h.order] at hd
  exact mem_of_mem_take hd

theorem Book.nodup (h : Book c peer l) : (published l).Nodup := by
  refine nodup_iff_getElem?_ne_getElem?.2 fun i j hij hj he => ?_
  obtain ⟨d, hd⟩ : ∃ d, (published l)[j]? = some d := ⟨_, getElem?_eq_getElem hj⟩
  have h1 := (h.numbered j d hd).1
  have h2 := (h.numbered i d (he.trans hd)).1
  omega

theorem Book.consumed_nodup (h : Book c peer l) : (consumed l).Nodup := by
  rw [h.order]
  exact h.nodup.sublist (take_sublist ..)

variable {v : Submission × Result × Result}

section

variable (h : Book c peer l)
include h

theorem Book.completed_once {w : Submission × Result × Result} (hv : v ∈ completions l) (hw : w ∈ completions l)
    (he : v.1 = w.1) : v = w :=
  inj_on_of_nodup_map (nodup_append.1 (h.flight.nodup_iff.1 h.consumed_nodup)).2.1 hv hw he

theorem Book.completed_published (hv : v ∈ completions l) : v.1 ∈ published l :=
  h.consumed_published _ (h.flight.mem_iff.2 (mem_append_right _ (mem_map_of_mem hv)))

theorem Book.open_progress (hd : d ∈ peer.inProgress) :
    d.toSubmission ∈ published l ∧ ∀ v ∈ completions l, v.1 ≠ d.toSubmission := by
  have hin : d.toSubmission ∈ peer.inProgress.map (·.toSubmission) := mem_map_of_mem hd
  refine ⟨h.consumed_published _ (h.flight.mem_iff.2 (mem_append_left _ hin)), fun v hv he => ?_⟩
  have hnodup := h.flight.nodup_iff.1 h.consumed_nodup
  refine (nodup_append.1 hnodup).2.2 _ hin v.1 (mem_map_of_mem hv) he.symm

theorem Book.open_head (hh : Heads c peer [d]) :
    d.toSubmission ∈ published l ∧ ∀ v ∈ completions l, v.1 ≠ d.toSubmission := by
  refine ⟨hh.published h d (mem_singleton_self d), fun v hv he => ?_⟩
  have hcons : d.toSubmission ∈ (published l).take (consumed l).length := by
    rw [← h.order, ← he]
    exact h.flight.mem_iff.2 (mem_append_right _ (mem_map_of_mem hv))
  have hdrop : d.toSubmission ∈ (published l).drop (consumed l).length := by
    have hmem : d.toSubmission ∈ [d].map (·.toSubmission) := mem_map_of_mem (mem_singleton_self d)
    rw [h.heads hh] at hmem
    exact mem_of_mem_take hmem
  have hnodup := h.nodup
  rw [← take_append_drop (consumed l).length (published l)] at hnodup
  exact (nodup_append.1 hnodup).2.2 _ hcons _ hdrop rfl

theorem Book.order_append (hh : Heads c peer ds) :
    consumed l ++ ds.map (·.toSubmission) = (published l).take ((consumed l).length + ds.length) := by
  rw [h.heads hh, take_add]
  exact congrArg (· ++ _) h.order

end

theorem number_getElem? (base : UInt64) (ds : List Desc) (i : Nat) :
    (number base ds)[i]? = ds[i]?.map (prepared (base + UInt64.ofNat (i + 1))) := by
  induction ds generalizing base i with
  | nil => rfl
  | cons d ds ih =>
    rw [number]
    cases i with
    | zero => rfl
    | succ i => rw [getElem?_cons_succ, getElem?_cons_succ, ih, add_ofNat_succ]

theorem submitAll_sequence {p : Fin n} {f f' : Fabric (Fin n)} {ds : List Submission} (h : submitAll p f ds = some f') :
    ∀ d ∈ ds, d.sequence ≠ uint64Max := by
  induction ds generalizing f with
  | nil => simp
  | cons d ds ih =>
    unfold submitAll at h
    dsimp only at h
    split_ifs at h with hone
    rcases trackSubmit_cases ⟨f.boards p, f.groups⟩ d.submitContext d.trackedGroup with ⟨hf, -⟩ | ⟨-, hmax, -⟩
    · exact absurd hone hf
    · exact forall_mem_cons.2 ⟨hmax, ih h⟩

end Book

/-! ## The walk over a visibility domain -/

/-- `d'` is `d`, with an error in place of its success at most. -/
structure Marked (d d' : Desc) : Prop where
  same : d' = { d with completionResult := d'.completionResult }
  success : d'.completionResult = .success → d.completionResult = .success

theorem Marked.refl (d : Desc) : Marked d d := ⟨rfl, id⟩

theorem Marked.trans {a b : Desc} (h : Marked a b) (h' : Marked b d) : Marked a d := by
  refine ⟨?_, fun hs => h.success (h'.success hs)⟩
  have hb := h.same
  have hd := h'.same
  rw [hb] at hd
  exact hd

theorem marked_source {l l' : List Desc} (h : List.Forall₂ Marked l l') {e : Desc} (he : e ∈ l') : ∃ d ∈ l, Marked d e := by
  induction h with
  | nil => exact absurd he not_mem_nil
  | cons hd _ ih =>
    rcases mem_cons.1 he with rfl | he
    · exact ⟨_, mem_cons_self, hd⟩
    · obtain ⟨d, hin, hm⟩ := ih he
      exact ⟨d, mem_cons_of_mem _ hin, hm⟩

section Walk
variable {p : Fin n} {index : Nat} {ans : Answers}

theorem marked_refl (l : List Desc) : List.Forall₂ Marked l l := forall₂_same.2 fun d _ => Marked.refl d

theorem marked_trans {a b d : List Desc} (h : List.Forall₂ Marked a b) (h' : List.Forall₂ Marked b d) :
    List.Forall₂ Marked a d := by
  induction h generalizing d with
  | nil => exact h'
  | cons hm _ ih =>
    cases h' with
    | cons hm' ht' => exact .cons (hm.trans hm') (ih ht')

theorem marked_submissions {a b : List Desc} (h : List.Forall₂ Marked a b) :
    b.map (·.toSubmission) = a.map (·.toSubmission) := by
  induction h with
  | nil => rfl
  | cons hm _ ih => rw [map_cons, map_cons, ih, hm.same]

theorem failGet_marked (hr : result ≠ .success) (l : List Desc) (getSequence : Nat) :
    List.Forall₂ Marked l (failGet index result l getSequence) := by
  induction l with
  | nil => exact .nil
  | cons d l ih =>
    unfold failGet
    split_ifs with hd hs
    · exact .cons ⟨rfl, fun h => absurd h hr⟩ (marked_refl l)
    · exact .cons (Marked.refl d) (marked_refl l)
    · exact .cons (Marked.refl d) ih

theorem failCovered_marked (hr : result ≠ .success) (l : List Desc) (previous visible : Nat) :
    List.Forall₂ Marked l (failCovered l index previous visible result) := by
  unfold failCovered
  generalize range' (previous + 1) (visible - previous) = ks
  induction ks generalizing l with
  | nil => exact marked_refl l
  | cons k ks ih => exact marked_trans (failGet_marked hr l k) (ih _)

def Note.IsFlush (p : Fin n) (v : Note n) : Prop :=
  (∃ domain key target result request, v = .flushPosted p domain key target result request) ∨
    ∃ domain key target result, v = .flushEnded p domain key target result

/-- What a part of the walk does to the requests and the notes. -/
structure Shore.Walks (p : Fin n) (s s' : Shore n) : Prop where
  marked : List.Forall₂ Marked s.inProgress s'.inProgress
  notes : ∃ m, s'.notes = s.notes ++ m ∧ ∀ v ∈ m, v.IsFlush p

theorem Shore.Walks.still {s s' : Shore n} (h : s'.inProgress = s.inProgress) (hn : s'.notes = s.notes) : s.Walks p s' :=
  ⟨h ▸ marked_refl _, [], by rw [hn, append_nil], by simp⟩

theorem Shore.Walks.trans {a b d : Shore n} (h : a.Walks p b) (h' : b.Walks p d) : a.Walks p d := by
  obtain ⟨m, hm, hq⟩ := h.notes
  obtain ⟨m', hm', hq'⟩ := h'.notes
  refine ⟨marked_trans h.marked h'.marked, m ++ m', by rw [hm', hm, append_assoc], fun v hv => ?_⟩
  exact (mem_append.1 hv).elim (hq v) (hq' v)

theorem endFlush_walks (s : Shore n) (result : Result) : s.Walks p (endFlush p index result s) := by
  have hnote : ∀ v ∈ ([.flushEnded p index s.domain.orderingKey s.domain.flushTargetGetSequence result] : List (Note n)),
      v.IsFlush p := by
    intro v hv
    rw [mem_singleton] at hv
    exact .inr ⟨_, _, _, _, hv⟩
  unfold endFlush
  split
  · split_ifs with hr
    · exact ⟨failCovered_marked hr _ _ _, _, rfl, hnote⟩
    · exact ⟨marked_refl _, _, rfl, hnote⟩
  · exact ⟨marked_refl _, _, rfl, hnote⟩

theorem testFlush_walks (s : Shore n) : s.Walks p (testFlush p index ans s) := by
  unfold testFlush
  split_ifs
  · exact endFlush_walks s _
  · exact .still rfl rfl

theorem extendData_walks (s : Shore n) : s.Walks p (extendData index s) := by
  unfold extendData
  dsimp only
  split_ifs
  · split <;> exact .still rfl rfl
  · exact .still rfl rfl

theorem postFlush_walks (s : Shore n) : s.Walks p (postFlush p index ans s) := by
  unfold postFlush
  by_cases hidle : s.domain.flushRequest ≠ none ∨ s.domain.dataCompletedGetSequence ≤ s.domain.visibleGetSequence
  · rw [if_pos hidle]
    exact .still rfl rfl
  rw [if_neg hidle]
  dsimp only
  split
  · split <;> exact .still rfl rfl
  generalize (if decide (s.domain.visibleGetSequence < s.domain.flushTargetGetSequence) = true then Except.ok s.domain
    else s.domain.beginFlush) = began
  cases began with
  | error _ => exact .still rfl rfl
  | ok domain =>
    have hnote : ∀ v ∈ ([.flushPosted p index domain.orderingKey domain.flushTargetGetSequence ans.flushPost
        ans.flushRequest.isSome] : List (Note n)), v.IsFlush p := by
      intro v hv
      rw [mem_singleton] at hv
      exact .inl ⟨_, _, _, _, _, hv⟩
    split_ifs
    · exact ⟨marked_refl _, _, rfl, hnote⟩
    · exact ⟨marked_refl _, _, rfl, hnote⟩
    · refine Shore.Walks.trans (b := { s with domain := { domain with flushRequest := ans.flushRequest }, notes := _ })
        ⟨marked_refl _, _, rfl, hnote⟩ (endFlush_walks _ _)

theorem walkDomain_walks (peer : Peer) (pendingError : Bool) :
    List.Forall₂ Marked peer.inProgress (walkDomain p peer index ans pendingError).inProgress ∧
      ∀ v ∈ (walkDomain p peer index ans pendingError).notes, v.IsFlush p := by
  have h : Shore.Walks p ⟨peer.domains index, peer.inProgress, pendingError, []⟩
      (walkDomain p peer index ans pendingError) :=
    ((testFlush_walks _).trans (extendData_walks _)).trans (postFlush_walks _)
  obtain ⟨m, hm, hq⟩ := h.notes
  refine ⟨h.marked, fun v hv => hq v ?_⟩
  rw [hm] at hv
  exact hv

end Walk

/-! ## The moves keep the books -/

variable {e : Enqueue} {α : Type} {i : Nat}

section Keep
variable {peer peer' : Peer} {l m : List (Note n)} {p : Fin n}

theorem Book.congr (h : Book c peer l) (hslots : ∀ i, (peer'.slots i).toSubmission = (peer.slots i).toSubmission)
    (hfresh : ∀ i, (peer'.slots i).Fresh) (hpi : peer'.pi = peer.pi) (hci : peer'.ci = peer.ci)
    (hop : peer'.opSeq = peer.opSeq)
    (hprog : peer'.inProgress.map (·.toSubmission) = peer.inProgress.map (·.toSubmission))
    (hin : peer'.inFlight = peer.inFlight) (hlock : peer'.lock = peer.lock ∨ ∀ e, peer'.lock ≠ .admitted e) :
    Book c peer' l := by
  have hlen : peer'.inProgress.length = peer.inProgress.length := by
    have := congrArg length hprog
    rwa [length_map, length_map] at this
  refine ⟨?_, h.order, hfresh, by rw [hop]; exact h.count, h.bound, h.numbered, by rw [hprog]; exact h.flight,
    by rw [hin, hlen]; exact h.inFlight, by rw [hlen]; exact h.limit, fun e he => ?_⟩
  · rw [funext hslots, hpi, hci]
    exact h.ring
  · rcases hlock with hl | hl
    · exact h.room e (hl ▸ he)
    · exact absurd he (hl e)

/-- Notes that publish, consume and complete nothing. -/
structure Quiet (m : List (Note n)) : Prop where
  published : published m = []
  consumed : consumed m = []
  completions : completions m = []

theorem Book.quiet (h : Book c peer l) (hm : Quiet m) : Book c peer (l ++ m) := by
  have hp : Rma.published (l ++ m) = Rma.published l := by rw [published_append, hm.published, append_nil]
  have hc : Rma.consumed (l ++ m) = Rma.consumed l := by rw [consumed_append, hm.consumed, append_nil]
  have hd : Rma.completions (l ++ m) = Rma.completions l := by rw [completions_append, hm.completions, append_nil]
  refine ⟨?_, ?_, h.fresh, ?_, ?_, ?_, ?_, h.inFlight, h.limit, ?_⟩
  all_goals simp only [hp, hc, hd]
  · exact h.ring
  · exact h.order
  · exact h.count
  · exact h.bound
  · exact h.numbered
  · exact h.flight
  · exact h.room

theorem quiet_of_forall (h : ∀ v ∈ m, v.publishes = none ∧ v.consumes = none ∧ v.completes = none) : Quiet m :=
  ⟨filterMap_eq_nil_iff.2 fun v hv => (h v hv).1, filterMap_eq_nil_iff.2 fun v hv => (h v hv).2.1,
    filterMap_eq_nil_iff.2 fun v hv => (h v hv).2.2⟩

theorem quiet_flush (h : ∀ v ∈ m, v.IsFlush p) : Quiet m := by
  refine quiet_of_forall fun v hv => ?_
  rcases h v hv with ⟨_, _, _, _, _, rfl⟩ | ⟨_, _, _, _, rfl⟩ <;> exact ⟨rfl, rfl, rfl⟩

theorem hasSpace_room (h : Book c peer l) (hs : hasSpace c peer e = true) (hfits : e.fits c = true) :
    (published l).length + e.descs.length ≤ (consumed l).length + 2 ^ c.bits ∧ 0 < e.descs.length := by
  have hsize := h.ring.size c.bits_lt'
  have hq := c.size_eq
  have hroom := h.ring.room
  have hone : circularBufFull c peer = false → (published l).length + 1 ≤ (consumed l).length + 2 ^ c.bits := by
    intro hfull
    rw [circularBufFull, decide_eq_false_iff_not, UInt32.not_le, UInt32.lt_iff_toNat_lt] at hfull
    omega
  have hmany : ∀ k, k ≤ (c.queueSize - (peer.pi - peer.ci)).toNat →
      (published l).length + k ≤ (consumed l).length + 2 ^ c.bits := by
    intro k hk
    rw [UInt32.toNat_sub_of_le _ _ (UInt32.le_iff_toNat_le.2 (by omega))] at hk
    omega
  cases e with
  | desc d ready => exact ⟨hone (by simpa [hasSpace] using hs), one_pos⟩
  | batch ds =>
    have hlen : ds.length ≤ (c.queueSize - (peer.pi - peer.ci)).toNat := by simpa [hasSpace] using hs
    have hne : ds ≠ [] := by
      rw [Enqueue.fits, Bool.and_eq_true] at hfits
      simpa using hfits.1
    exact ⟨hmany _ hlen, length_pos_iff.2 hne⟩
  | releaseGroup data release ready =>
    have hlen : (Enqueue.releaseGroup data release ready).descs.length = data.length + 1 := by simp [Enqueue.descs]
    rw [hlen]
    exact ⟨hmany _ (by simpa [hasSpace] using hs), Nat.succ_pos _⟩
  | ipcGet d => exact ⟨hone (by simpa [hasSpace] using hs), one_pos⟩

variable {ds : List Desc}

theorem fill_fresh {mask : UInt32} {slots : Nat → Desc} {pi : UInt32} (h : ∀ i, (slots i).Fresh)
    (hds : ∀ d ∈ ds, d.Fresh) (i : Nat) : (fill mask slots pi ds i).Fresh := by
  induction ds generalizing slots pi with
  | nil => exact h i
  | cons d ds ih =>
    refine ih (fun j => ?_) fun e he => hds e (mem_cons_of_mem d he)
    rw [update_apply]
    split_ifs
    · exact hds d mem_cons_self
    · exact h j

theorem fill_map {β : Type} (g : α → β) (mask : UInt32) (slots : Nat → α) (pi : UInt32) (vs : List α) :
    (fun i => g (fill mask slots pi vs i)) = fill mask (fun i => g (slots i)) pi (vs.map g) := by
  induction vs generalizing slots pi with
  | nil => rfl
  | cons v vs ih =>
    rw [map_cons, fill, fill, ih]
    congr 1
    funext i
    rw [update_apply, update_apply]
    split_ifs <;> rfl

theorem number_fresh (base : UInt64) (ds : List Desc) : ∀ d ∈ number base ds, d.Fresh := by
  intro d hd
  obtain ⟨i, hi⟩ := getElem?_of_mem hd
  rw [number_getElem?, map_eq_some_iff] at hi
  obtain ⟨e, -, rfl⟩ := hi
  exact ⟨rfl, rfl, rfl, rfl⟩

theorem Book.number_spec (h : Book c peer l) (hmax : ∀ d ∈ number peer.opSeq ds, d.sequence ≠ uint64Max) (hd : (number peer.opSeq ds)[i]? = some d) :
    d.opSeq.toNat = (published l).length + i + 1 ∧ (published l).length + i + 1 < 2 ^ 64 - 1 ∧ d.sequence = d.opSeq ∧
      d.generation = generation := by
  have hcount := h.count
  have hbound := h.bound
  induction i generalizing d with
  | zero =>
    have hmem := hmax d (mem_of_getElem? hd)
    rw [number_getElem?, map_eq_some_iff] at hd
    obtain ⟨e, -, rfl⟩ := hd
    have hne : (peer.opSeq + UInt64.ofNat (0 + 1)).toNat ≠ 2 ^ 64 - 1 := fun he => hmem (UInt64.toNat_inj.1 he)
    have heq : (peer.opSeq + UInt64.ofNat (0 + 1)).toNat = (published l).length + 1 := by
      rw [UInt64.toNat_add, hcount]
      exact Nat.mod_eq_of_lt (by simp; omega)
    exact ⟨heq, by omega, rfl, rfl⟩
  | succ i ih =>
    have hmem := hmax d (mem_of_getElem? hd)
    have hlt : i < (number peer.opSeq ds).length := by
      have := (List.getElem?_eq_some_iff.1 hd).1
      omega
    obtain ⟨hprev, hb, -, -⟩ := ih (getElem?_eq_getElem hlt)
    rw [number_getElem?, map_eq_some_iff] at hd
    obtain ⟨e, -, rfl⟩ := hd
    have hne : (peer.opSeq + UInt64.ofNat (i + 1 + 1)).toNat ≠ 2 ^ 64 - 1 := fun he => hmem (UInt64.toNat_inj.1 he)
    have heq : (peer.opSeq + UInt64.ofNat (i + 1 + 1)).toNat = (published l).length + (i + 1) + 1 := by
      rw [UInt64.toNat_add, hcount, UInt64.toNat_ofNat', Nat.mod_eq_of_lt (a := i + 1 + 1) (by omega)]
      exact Nat.mod_eq_of_lt (by omega)
    exact ⟨heq, by omega, rfl, rfl⟩

theorem Book.publish (h : Book c peer l) (hlock : peer.lock = .admitted e)
    (hmax : ∀ d ∈ number peer.opSeq e.descs, d.sequence ≠ uint64Max)
    (hpub : published m = (number peer.opSeq e.descs).map (·.toSubmission)) (hcons : consumed m = [])
    (hcomp : completions m = []) : Book c (peer.publish c e) (l ++ m) := by
  have hnum := fun {i d} => h.number_spec (i := i) (d := d) hmax
  have hring := h.ring.append c.bits_lt' c.mask_eq ((number peer.opSeq e.descs).map (·.toSubmission))
    (by rw [length_map, number_length]; exact h.room e hlock)
  have hfill := fill_map (fun d : Desc => d.toSubmission) c.queueMask peer.slots peer.pi (number peer.opSeq e.descs)
  rw [← hfill, length_map, number_length] at hring
  have hbound : (published l).length + e.descs.length < 2 ^ 64 - 1 := by
    rcases Nat.eq_zero_or_pos e.descs.length with hz | hpos
    · rw [hz]
      exact h.bound
    · have hlt : e.descs.length - 1 < (number peer.opSeq e.descs).length := by rw [number_length]; omega
      have := (hnum (getElem?_eq_getElem hlt)).2.1
      omega
  refine ⟨?_, ?_, ?_, ?_, ?_, ?_, ?_, h.inFlight, h.limit, ?_⟩
  · rw [published_append, consumed_append, hpub, hcons, append_nil]
    exact hring
  · rw [published_append, consumed_append, hcons, append_nil, take_append_of_le_length h.ring.le]
    exact h.order
  · exact fill_fresh h.fresh (number_fresh _ _)
  · have hcount := h.count
    show (peer.opSeq + UInt64.ofNat e.descs.length).toNat = _
    rw [published_append, hpub, length_append, length_map, number_length, UInt64.toNat_add,
      UInt64.toNat_ofNat', hcount, Nat.mod_eq_of_lt (a := e.descs.length) (by omega), Nat.mod_eq_of_lt (by omega)]
  · rw [published_append, hpub, length_append, length_map, number_length]
    exact hbound
  · intro i d hd
    rw [published_append, hpub] at hd
    by_cases hi : i < (published l).length
    · rw [getElem?_append_left hi] at hd
      exact h.numbered i d hd
    · rw [getElem?_append_right (not_lt.1 hi), getElem?_map, map_eq_some_iff] at hd
      obtain ⟨e', he', rfl⟩ := hd
      obtain ⟨h1, -, h2, h3⟩ := hnum he'
      exact ⟨by omega, h2, h3⟩
  · rw [consumed_append, completions_append, hcons, hcomp, append_nil, append_nil]
    exact h.flight
  · intro e' he'
    have hne : (peer.publish c e).lock ≠ .admitted e' := by
      show (if e.isIpc then Lock.arming peer.pi else .free) ≠ _
      split_ifs <;> simp
    exact absurd he' hne

theorem Book.take (h : Book c peer l) {hs : List Desc} (hheads : Heads c peer hs) (hcons : consumed m = hs.map (·.toSubmission))
    (hpub : published m = []) (hprog : peer'.inProgress.length ≤ c.queueSize.toNat)
    (hflight : (consumed l ++ hs.map (·.toSubmission)).Perm
      (peer'.inProgress.map (·.toSubmission) ++ (completions (l ++ m)).map (·.1)))
    (hin : peer'.inFlight.toNat = peer'.inProgress.length) (hslots : peer'.slots = peer.slots) (hpi : peer'.pi = peer.pi)
    (hci : peer'.ci = peer.ci + UInt32.ofNat hs.length) (hop : peer'.opSeq = peer.opSeq) (hlock : peer'.lock = peer.lock) :
    Book c peer' (l ++ m) := by
  have hlen : (consumed (l ++ m)).length = (consumed l).length + hs.length := by
    rw [consumed_append, hcons, length_append, length_map]
  have hpub' : published (l ++ m) = published l := by rw [published_append, hpub, append_nil]
  refine ⟨?_, ?_, by rw [hslots]; exact h.fresh, ?_, ?_, ?_, ?_, hin, hprog, ?_⟩
  · rw [hpub', hlen, hslots, hpi, hci]
    exact h.ring.pop (h.heads_le hheads)
  · rw [hpub', hlen, consumed_append, hcons]
    exact h.order_append hheads
  · rw [hpub', hop]
    exact h.count
  · rw [hpub']
    exact h.bound
  · rw [hpub']
    exact h.numbered
  · rw [consumed_append, hcons]
    exact hflight
  · intro e he
    rw [hlock] at he
    have := h.room e he
    rw [hpub', hlen]
    omega

theorem carried_submissions {hs : List Desc} (h : List.Forall₂ Carried hs ds) :
    ds.map (·.toSubmission) = hs.map (·.toSubmission) := by
  induction h with
  | nil => rfl
  | cons hc _ ih => rw [map_cons, map_cons, ih, hc]

theorem eraseIdx_perm {xs : List α} {d : α} (h : xs[i]? = some d) : xs.Perm (d :: xs.eraseIdx i) := by
  obtain ⟨hi, rfl⟩ := List.getElem?_eq_some_iff.1 h
  exact (getElem_cons_eraseIdx_perm hi).symm

theorem Book.retire (h : Book c peer l) {tracked : Result}
    (hi : peer.inProgress[i]? = some d) (hpub : published m = []) (hcons : consumed m = [])
    (hcomp : completions m = [(d.toSubmission, result, tracked)]) :
    Book c { peer with inProgress := peer.inProgress.eraseIdx i, inFlight := peer.inFlight - 1 } (l ++ m) := by
  have hlen : i < peer.inProgress.length := (List.getElem?_eq_some_iff.1 hi).1
  have hpos : 0 < peer.inProgress.length := by omega
  have hpub' : published (l ++ m) = published l := by rw [published_append, hpub, append_nil]
  have hcons' : consumed (l ++ m) = consumed l := by rw [consumed_append, hcons, append_nil]
  have hin := h.inFlight
  refine ⟨?_, ?_, h.fresh, ?_, ?_, ?_, ?_, ?_, ?_, ?_⟩
  · rw [hpub', hcons']
    exact h.ring
  · rw [hpub', hcons']
    exact h.order
  · rw [hpub']
    exact h.count
  · rw [hpub']
    exact h.bound
  · rw [hpub']
    exact h.numbered
  · rw [hcons', completions_append, hcomp, map_append, map_singleton]
    refine h.flight.trans ?_
    have hperm := (eraseIdx_perm hi).map (·.toSubmission)
    rw [map_cons] at hperm
    refine (hperm.append_right _).trans ?_
    rw [cons_append, ← append_assoc]
    exact (perm_append_singleton _ _).symm
  · rw [length_eraseIdx_of_lt hlen, UInt32.toNat_sub_of_le, hin]
    · rfl
    · rw [UInt32.le_iff_toNat_le, hin]
      exact hpos
  · have := h.limit
    rw [length_eraseIdx_of_lt hlen]
    omega
  · intro e he
    rw [hpub', hcons']
    exact h.room e he

end Keep

section Run
variable {x y : Core n} {log ns : List (Note n)}

theorem take_submissions (ds : List Desc) (p : Fin n) :
    consumed (ds.map fun d => (.consumed p d.toSubmission : Note n)) = ds.map (·.toSubmission) ∧
      published (ds.map fun d => (.consumed p d.toSubmission : Note n)) = [] ∧
      completions (ds.map fun d => (.consumed p d.toSubmission : Note n)) = [] := by
  induction ds with
  | nil => exact ⟨rfl, rfl, rfl⟩
  | cons d ds ih => exact ⟨congrArg (d.toSubmission :: ·) ih.1, ih.2.1, ih.2.2⟩

theorem publish_submissions (ds : List Desc) (p : Fin n) (awaits : Option UInt64) :
    published (ds.map fun d => (.published p d.toSubmission awaits : Note n)) = ds.map (·.toSubmission) ∧
      consumed (ds.map fun d => (.published p d.toSubmission awaits : Note n)) = [] ∧
      completions (ds.map fun d => (.published p d.toSubmission awaits : Note n)) = [] := by
  induction ds with
  | nil => exact ⟨rfl, rfl, rfl⟩
  | cons d ds ih => exact ⟨congrArg (d.toSubmission :: ·) ih.1, ih.2.1, ih.2.2⟩

theorem Book.still {peer peer' : Peer} {l : List (Note n)} (h : Book c peer l) (hslots : peer'.slots = peer.slots)
    (hpi : peer'.pi = peer.pi) (hci : peer'.ci = peer.ci) (hop : peer'.opSeq = peer.opSeq)
    (hprog : peer'.inProgress.map (·.toSubmission) = peer.inProgress.map (·.toSubmission))
    (hin : peer'.inFlight = peer.inFlight) (hlock : peer'.lock = peer.lock ∨ ∀ e, peer'.lock ≠ .admitted e) :
    Book c peer' l :=
  h.congr (fun i => by rw [hslots]) (by rw [hslots]; exact h.fresh) hpi hci hop hprog hin hlock

theorem map_set_same {β : Type} {xs : List α} {d e : α} (f : α → β) (hi : xs[i]? = some d) (he : f e = f d) :
    (xs.set i e).map f = xs.map f := by
  refine ext_getElem? fun k => ?_
  rw [getElem?_map, getElem?_map, getElem?_set]
  split_ifs with hk hlt
  · subst hk
    rw [hi, map_some, map_some, he]
  · subst hk
    rw [getElem?_eq_none (not_lt.1 hlt)]
  · rfl

theorem Core.complete_peers (x : Core n) (p : Fin n) (peer : Peer) (d : Submission) (result : Result) :
    ∃ doneSeq, ((x.setPeer p peer).complete p d result).peers = (x.setPeer p { peer with doneSeq := doneSeq }).peers := by
  unfold Core.complete
  rw [Core.setPeer_self]
  simp only [Core.setPeer, update_idem]
  exact ⟨_, rfl⟩

theorem Core.retire_peers (x : Core n) (p : Fin n) (i : Nat) (d : Submission) (result : Result) :
    ∃ doneSeq, ((x.setPeer p { x.peers p with
      inProgress := (x.peers p).inProgress.eraseIdx i, inFlight := (x.peers p).inFlight - 1 }).complete p d result).peers =
      (x.setPeer p { x.peers p with
        inProgress := (x.peers p).inProgress.eraseIdx i, inFlight := (x.peers p).inFlight - 1, doneSeq := doneSeq }).peers :=
  x.complete_peers p _ d result

theorem Core.settle_peers (x : Core n) (p : Fin n) (d : Submission) (result : Result) :
    ∃ doneSeq, ((x.setPeer p { x.peers p with ci := (x.peers p).ci + 1 }).complete p d result).peers =
      (x.setPeer p { x.peers p with ci := (x.peers p).ci + 1, doneSeq := doneSeq }).peers :=
  x.complete_peers p _ d result

theorem Move.books {a : Action n} (h : Move c x a y ns) (hb : ∀ p, Book c (x.peers p) (view p log)) (q : Fin n) :
    Book c (y.peers q) (view q (log ++ ns)) := by
  have lift : ∀ (p : Fin n) (peer : Peer) (m : List (Note n)), (∀ v ∈ m, v.peer = p) → Book c peer (view p log ++ m) →
      Book c ((x.setPeer p peer).peers q) (view q (log ++ m)) := fun p peer m hm hp =>
    forall_setPeer (P := fun _ => Book c) hb hm hp q
  cases h with
  | admitCall p call groupId e he hlock hvalid hfits hspace hgroup
  | admitGroup p call groupId e group he hlock hvalid hfits hspace hgroup hinit =>
    have h := hb p
    refine lift p _ [] (by simp) ?_
    rw [append_nil]
    refine ⟨h.ring, h.order, h.fresh, h.count, h.bound, h.numbered, h.flight, h.inFlight, h.limit, fun e' he' => ?_⟩
    cases he'
    exact (hasSpace_room h hspace hfits).1
  | publish p e f f' hlock hsubmit hseal =>
    obtain ⟨h1, h2, h3⟩ := publish_submissions (number (x.peers p).opSeq e.descs) p
      (if e.signals then some (e.last (x.peers p).opSeq) else none)
    refine lift p _ _ ?_ ((hb p).publish hlock ?_ h1 h2 h3)
    · intro v hv
      obtain ⟨d, -, rfl⟩ := mem_map.1 hv
      rfl
    · intro d hd
      exact submitAll_sequence hsubmit _ (mem_map_of_mem hd)
  | unpublish p e k f hlock hsubmit =>
    refine lift p _ [] (by simp) ?_
    rw [append_nil]
    exact (hb p).still rfl rfl rfl rfl rfl rfl (.inr (by simp))
  | arm p idx ipcStatus hlock =>
    refine lift p _ [] (by simp) ?_
    rw [append_nil]
    have hslot : ∀ i, (update (x.peers p).slots (c.slot idx)
        { (x.peers p).slots (c.slot idx) with ipcStatus := ipcStatus, eventArmed := true } i).toSubmission =
          ((x.peers p).slots i).toSubmission ∧
        (update (x.peers p).slots (c.slot idx)
          { (x.peers p).slots (c.slot idx) with ipcStatus := ipcStatus, eventArmed := true } i).Fresh := by
      intro i
      have hf := (hb p).fresh i
      rw [update_apply]
      split_ifs with hi
      · subst hi
        exact ⟨rfl, hf.request, hf.stage, hf.getSequence, hf.data⟩
      · exact ⟨rfl, hf⟩
    exact (hb p).congr (fun i => (hslot i).1) (fun i => (hslot i).2) rfl rfl rfl rfl rfl (.inr (by simp))
  | signal p k seq hk =>
    refine lift p _ [.fired p seq] (by simp [Note.peer]) (Book.quiet ?_ ⟨rfl, rfl, rfl⟩)
    exact (hb p).still rfl rfl rfl rfl rfl rfl (.inl rfl)
  | hand p ds call result staging hheads hready hrelease hstaging hcall =>
    refine lift p _ _ ?_ (Book.quiet ?_ (quiet_of_forall ?_))
    · intro v hv
      obtain ⟨d, -, rfl⟩ := mem_map.1 hv
      rfl
    · exact (hb p).still rfl rfl rfl rfl rfl rfl (.inl rfl)
    · intro v hv
      obtain ⟨d, -, rfl⟩ := mem_map.1 hv
      exact ⟨rfl, rfl, rfl⟩
  | openDomain p index orderingKey domain hindex hfree hinit | prune p =>
    refine lift p _ [] (by simp) ?_
    rw [append_nil]
    exact (hb p).still rfl rfl rfl rfl rfl rfl (.inl rfl)
  | take p hs ds hheads hroom hcarried hflush hrelease hstaging =>
    obtain ⟨h1, h2, h3⟩ := take_submissions ds p
    have hsub := carried_submissions hcarried
    have hlen : hs.length = ds.length := hcarried.length_eq
    have hin := (hb p).inFlight
    refine lift p _ _ ?_ ((hb p).take hheads (h1.trans hsub) h2 ?_ ?_ ?_ rfl rfl (by rw [hlen]) rfl rfl)
    · intro v hv
      obtain ⟨d, -, rfl⟩ := mem_map.1 hv
      rfl
    · rw [length_append, ← hin]
      exact hroom
    · rw [completions_append, h3, append_nil, map_append, ← hsub]
      refine ((hb p).flight.append_right _).trans ?_
      rw [append_assoc, append_assoc]
      exact perm_append_comm.append_left _
    · have hq := c.queueSize.toNat_lt
      rw [toNat_add_ofNat, length_append, ← hin]
      exact Nat.mod_eq_of_lt (by omega)
  | takeTracked p h' request index getSequence domain hheads hroom hget hactive hissue =>
    have hin := (hb p).inFlight
    refine lift p _ _ (by simp [Note.peer]) ((hb p).take hheads rfl rfl ?_ ?_ ?_ rfl rfl rfl rfl rfl)
    · rw [length_append, ← hin]
      exact hroom
    · have hnone : completions ([.consumed p h'.toSubmission] : List (Note n)) = [] := rfl
      rw [completions_append, hnone, append_nil, map_append]
      refine ((hb p).flight.append_right _).trans ?_
      rw [append_assoc, append_assoc]
      exact perm_append_comm.append_left _
    · show ((x.peers p).inFlight + UInt32.ofNat 1).toNat = ((x.peers p).inProgress ++ [_]).length
      have hq := c.queueSize.toNat_lt
      rw [toNat_add_ofNat, length_append, ← hin]
      exact Nat.mod_eq_of_lt (by simp; omega)
  | retire p i d result hi hresult hget =>
    obtain ⟨doneSeq, hpeers⟩ := x.retire_peers p i d.toSubmission result
    rw [hpeers]
    refine lift p _ [.completed p d.toSubmission result (x.tracked p d.toSubmission result)] (by simp [Note.peer]) ?_
    exact ((hb p).retire hi rfl rfl rfl).still rfl rfl rfl rfl rfl rfl (.inl rfl)
  | settle p d result hheads hresult =>
    obtain ⟨doneSeq, hpeers⟩ := x.settle_peers p d.toSubmission result
    rw [hpeers]
    refine lift p _ [.consumed p d.toSubmission,
      .completed p d.toSubmission result (x.tracked p d.toSubmission result)] (by simp [Note.peer]) ?_
    refine (hb p).take hheads rfl rfl (hb p).limit ?_ (hb p).inFlight rfl rfl rfl rfl rfl
    have hone : completions ([.consumed p d.toSubmission,
        .completed p d.toSubmission result (x.tracked p d.toSubmission result)] : List (Note n)) =
      [(d.toSubmission, result, x.tracked p d.toSubmission result)] := rfl
    rw [completions_append, hone, map_append, ← append_assoc]
    exact (hb p).flight.append_right _
  | dataDone p i d result hi hstage hseq hresult =>
    refine lift p _ [.dataDone p d.toSubmission (d.getVisibilityDomain.getD 0) d.getSequence result] (by simp [Note.peer])
      (Book.quiet ?_ ⟨rfl, rfl, rfl⟩)
    refine (hb p).still rfl rfl rfl rfl ?_ rfl (.inl rfl)
    exact map_set_same _ hi rfl
  | domain p index ans pendingError hactive huse =>
    obtain ⟨hmarked, hnotes⟩ : _ ∧ ∀ v ∈ (walkDomain p (x.peers p) index ans pendingError).notes, v.IsFlush p :=
      walkDomain_walks (x.peers p) pendingError
    refine lift p _ _ ?_ (Book.quiet ?_ (quiet_flush hnotes))
    · intro v hv
      rcases hnotes v hv with ⟨_, _, _, _, _, rfl⟩ | ⟨_, _, _, _, rfl⟩ <;> rfl
    · exact (hb p).still rfl rfl rfl rfl (marked_submissions hmarked) rfl (.inl rfl)
  | deliver p i d hi htype hrequest =>
    have h := lift p (x.peers p) [.delivered p d.toSubmission (x.peers p).staging] (by simp [Note.peer])
      ((hb p).quiet ⟨rfl, rfl, rfl⟩)
    rwa [Core.setPeer_eq] at h

theorem book_init : Book c Peer.init ([] : List (Note n)) := by
  refine ⟨Ring.empty _ _, rfl, fun _ => ⟨rfl, rfl, rfl, rfl⟩, rfl, by simp, by simp, .nil, rfl, Nat.zero_le _, ?_⟩
  intro e he
  cases he

section Cases
variable {x y : Core n} {a : Action n} {log ns : List (Note n)}

theorem Move.published_cases (h : Move c x a y ns) :
    (∃ p e f, a = .publish p ∧ (x.peers p).lock = .admitted e ∧
      submitAll p x.fabric ((number (x.peers p).opSeq e.descs).map (·.toSubmission)) = some f ∧
      ns = (number (x.peers p).opSeq e.descs).map fun d =>
        .published p d.toSubmission (if e.signals then some (e.last (x.peers p).opSeq) else none)) ∨
    published ns = [] := by
  cases h with
  | publish p e f f' hlock hsubmit hseal => exact .inl ⟨p, e, f, rfl, hlock, hsubmit, rfl⟩
  | hand p ds call result =>
    refine .inr (quiet_of_forall fun v hv => ?_).published
    obtain ⟨d, -, rfl⟩ := mem_map.1 hv
    exact ⟨rfl, rfl, rfl⟩
  | take p hs ds => exact .inr (take_submissions ds p).2.1
  | domain p index ans pendingError => exact .inr (quiet_flush (walkDomain_walks _ _).2).published
  | _ => exact .inr rfl

theorem published_view {l : List (Note n)} (h : published l = []) (q : Fin n) : published (view q l) = [] := by
  refine filterMap_eq_nil_iff.2 fun v hv => ?_
  exact filterMap_eq_nil_iff.1 h v (mem_view.1 hv).1

theorem Core.setPeer_peers (x : Core n) (p q : Fin n) (peer : Peer) :
    (x.setPeer p peer).peers q = if q = p then peer else x.peers q := update_apply ..

theorem Core.setPeer_field (g : Peer → α) {p : Fin n} {peer : Peer} (h : g peer = g (x.peers p))
    (q : Fin n) : g ((x.setPeer p peer).peers q) = g (x.peers q) := by
  rw [Core.setPeer_peers]
  split_ifs with hq
  · rw [h, hq]
  · rfl

theorem Move.lock_cases (h : Move c x a y ns) {q : Fin n} (he : (y.peers q).lock = .admitted e) :
    (x.peers q).lock = .admitted e ∨ ∃ call gid, a = .admitCall q call gid ∧ (x.peers q).lock = .free ∧
      e = call.enqueue x.groupCount gid ∧ call.valid c = true := by
  have other : ∀ (p : Fin n) (peer : Peer), ((x.setPeer p peer).peers q).lock = .admitted e →
      (x.peers q).lock = .admitted e ∨ (q = p ∧ peer.lock = .admitted e) := by
    intro p peer hl
    rw [Core.setPeer_peers] at hl
    split_ifs at hl with hq
    · exact .inr ⟨hq, hl⟩
    · exact .inl hl
  cases h with
  | admitCall p call groupId e' hdef hlock hvalid | admitGroup p call groupId e' group hdef hlock hvalid =>
    refine (other p _ he).imp_right ?_
    rintro ⟨rfl, hl⟩
    cases hl
    exact ⟨call, groupId, rfl, hlock, hdef, hvalid⟩
  | publish p e' f f' hlock =>
    refine (other p _ he).imp_right ?_
    rintro ⟨rfl, hl⟩
    have hne : ((x.peers q).publish c e').lock ≠ .admitted e := by
      show (if e'.isIpc then Lock.arming (x.peers q).pi else .free) ≠ _
      split_ifs <;> simp
    exact absurd hl hne
  | unpublish p e' k f hlock | arm p idx ipcStatus hlock =>
    refine (other p _ he).imp_right ?_
    rintro ⟨-, hl⟩
    cases hl
  | retire p i d result =>
    obtain ⟨doneSeq, hpeers⟩ := x.retire_peers p i d.toSubmission result
    rw [hpeers] at he
    exact .inl ((other p _ he).elim id fun h => h.1 ▸ h.2)
  | settle p d result =>
    obtain ⟨doneSeq, hpeers⟩ := x.settle_peers p d.toSubmission result
    rw [hpeers] at he
    exact .inl ((other p _ he).elim id fun h => h.1 ▸ h.2)
  | deliver p => exact .inl he
  | _ p => exact .inl ((other p _ he).elim id fun h => h.1 ▸ h.2)

def Note.Hands : Note n → Prop
  | .handed _ _ _ _ => True
  | _ => False

theorem Move.handed_cases (h : Move c x a y ns) :
    (∃ p ds, ∃ call : Desc → NetCall, ∃ result, Heads c (x.peers p) ds ∧
      (∀ d ∈ ds, d.opSeq ≤ (x.peers p).readySeq ∨ ∃ h ∈ ds, h.streamEvent = true ∧ (h = d ∨ h.type = .put)) ∧
      (∀ d ∈ ds, d.type = .release → releaseVerdict x.fabric d.releaseGroup = ⟨.success, true, true⟩) ∧
      (∀ d ∈ ds, d.type = .release → call d = .iputSignal 0 0 0 none d.signalOff d.signalValue) ∧
      ns = ds.map fun d => .handed p d.toSubmission (call d) result) ∨
    ∀ v ∈ ns, ¬ v.Hands := by
  have one : ∀ v : Note n, ¬ v.Hands → ∀ w ∈ [v], ¬ w.Hands := by
    intro v hv w hw
    rwa [mem_singleton.1 hw]
  cases h with
  | hand p ds call result staging hheads hready hrelease hstaging hcall =>
    exact .inl ⟨p, ds, call, result, hheads, hready, hrelease, hcall, rfl⟩
  | publish p e f f' | take p hs ds =>
    refine .inr fun v hv => ?_
    obtain ⟨d, -, rfl⟩ := mem_map.1 hv
    exact id
  | domain p index ans pendingError =>
    refine .inr fun v hv => ?_
    rcases (walkDomain_walks _ _).2 v hv with ⟨_, _, _, _, _, rfl⟩ | ⟨_, _, _, _, rfl⟩ <;> exact id
  | settle p d result =>
    refine .inr fun v hv => ?_
    rcases mem_cons.1 hv with rfl | hv
    · exact id
    · exact one _ id v hv
  | signal | takeTracked | retire | dataDone | deliver => exact .inr (one _ id)
  | _ => exact .inr fun v hv => absurd hv not_mem_nil

theorem Move.completed_cases (h : Move c x a y ns) :
    (∃ (p : Fin n) (i : Nat) (d : Desc) (result : Result), (x.peers p).inProgress[i]? = some d ∧
      (result = d.completionResult ∨ (result ≠ .success ∧ d.request = true)) ∧
      (d.getSequence = 0 ∨ ∃ index, d.getVisibilityDomain = some index ∧ d.completionStage = .flushPending ∧
        d.getSequence ≤ ((x.peers p).domains index).visibleGetSequence ∧ result = d.completionResult) ∧
      ns = [.completed p d.toSubmission result (x.tracked p d.toSubmission result)]) ∨
    (∃ (p : Fin n) (d : Desc) (result : Result), Heads c (x.peers p) [d] ∧ (result ≠ .success ∨ d.type = .ipcGet) ∧
      ns = [.consumed p d.toSubmission, .completed p d.toSubmission result (x.tracked p d.toSubmission result)]) ∨
    completions ns = [] := by
  cases h with
  | retire p i d result hi hresult hget => exact .inl ⟨p, i, d, result, hi, hresult, hget, rfl⟩
  | settle p d result hheads hresult => exact .inr (.inl ⟨p, d, result, hheads, hresult, rfl⟩)
  | publish p e f f' => exact .inr (.inr (publish_submissions (number (x.peers p).opSeq e.descs) p _).2.2)
  | hand p ds call result =>
    refine .inr (.inr (quiet_of_forall fun v hv => ?_).completions)
    obtain ⟨d, -, rfl⟩ := mem_map.1 hv
    exact ⟨rfl, rfl, rfl⟩
  | take p hs ds => exact .inr (.inr (take_submissions ds p).2.2)
  | domain p index ans pendingError => exact .inr (.inr (quiet_flush (walkDomain_walks _ _).2).completions)
  | _ => exact .inr (.inr rfl)

end Cases

theorem init_eq {groups : Nat → ReleaseGroup} {s : Proxy n} (h : Proxy.init c groups = .ok s) :
    ∃ board, CompletionScoreboard.init (c.queueSize * 2) generation 1 = .ok board ∧
      s = { peers := fun _ => Peer.init, fabric := ⟨fun _ => board, groups⟩, groupCount := 0, completionCount := 0,
            pendingError := false, rmaError := false, quiesced := false, pc := .start } := by
  unfold Proxy.init at h
  cases hboard : CompletionScoreboard.init (c.queueSize * 2) generation 1 with
  | error e =>
    rw [hboard] at h
    cases h
  | ok board =>
    rw [hboard] at h
    cases h
    exact ⟨board, rfl, rfl⟩

variable {ok : Run n → Action n → Prop}

/-- The induction rule of runs. For a move of another party than the progress thread, the guard holds in the state before it.
-/
theorem Reachable.keeps {I : Core n → List (Note n) → Prop} {r : Run n} (h : Reachable c ok r)
    (h0 : ∀ board groups, CompletionScoreboard.init (c.queueSize * 2) generation 1 = .ok board →
      I ⟨fun _ => Peer.init, ⟨fun _ => board, groups⟩, 0, 0⟩ [])
    (hm : ∀ x a y log ns, I x log → Move c x a y ns →
      ((∀ ans, a ≠ .progress ans) → ∃ s : Proxy n, s.toCore = x ∧ ok ⟨s, log⟩ a) → I y (log ++ ns)) :
    I r.proxy.toCore r.log := by
  obtain ⟨s, groups, hinit, hreach⟩ := h
  refine hreach.invariant (I := fun r => I r.proxy.toCore r.log) ?_ ?_
  · obtain ⟨board, hboard, rfl⟩ := init_eq hinit
    exact h0 board groups hboard
  · intro r r' a hI hok hstep
    obtain ⟨out, hact, rfl⟩ := map_eq_some_iff.1 hstep
    have hmoves := act_moves hact
    generalize out.1.toCore = y at hmoves
    generalize hns : out.2 = ns at hmoves
    clear hns hact
    -- the moves of the progress thread need no guard, and the others are single
    by_cases hp : ∃ ans, a = .progress ans
    · generalize r.proxy.toCore = x at hmoves hI
      generalize r.log = log at hI
      obtain ⟨ans, rfl⟩ := hp
      induction hmoves generalizing log with
      | nil => simpa using hI
      | one hmove => exact hm _ _ _ _ _ hI hmove fun hno => absurd rfl (hno ans)
      | cons _ hmove _ ih =>
        rw [← append_assoc]
        exact ih _ (hm _ _ _ _ _ hI hmove fun hno => absurd rfl (hno ans))
    · cases hmoves with
      | nil => simpa using hI
      | one hmove => exact hm _ _ _ _ _ hI hmove fun _ => ⟨r.proxy, rfl, hok⟩
      | cons ha => exact absurd ha hp

/-- **The books are kept in every run.** -/
theorem Reachable.books {r : Run n} (h : Reachable c ok r) (p : Fin n) : Book c (r.proxy.peers p) (view p r.log) :=
  h.keeps (I := fun x log => ∀ p, Book c (x.peers p) (view p log)) (fun _ _ _ _ => book_init)
    (fun _ _ _ _ _ hb hmove _ => hmove.books hb) p

end Run

/-! ## A small proxy -/

def fourSlots : Config 1 :=
  { queueSize := 4, pow := by decide, ranks := by decide, batching := false, batchMax := 1,
    requiresFlush := fun _ => true, mrIndexIsValid := fun _ => true, hasStaging := true }

def fourBoard : CompletionScoreboard := ⟨fun _ => completionEntryReset, 8, 0, 1, 1, .success⟩

def fourStart : Proxy 1 :=
  { peers := fun _ => Peer.init, fabric := ⟨fun _ => fourBoard, fun _ => ⟨0, 0, .opened, 0, 0, false, .success⟩⟩
    groupCount := 0, completionCount := 0, pendingError := false, rmaError := false, quiesced := false, pc := .start }

theorem fourSlots_init : Proxy.init fourSlots (fun _ => ⟨0, 0, .opened, 0, 0, false, .success⟩) = .ok fourStart := rfl

theorem exists_run {β : Type} {as : List (Action 1)} {f : Run 1 → β} {b : β}
    (h : (exec (step fourSlots) ⟨fourStart, []⟩ as).map f = some b) :
    ∃ r, Reachable fourSlots (fun _ _ => True) r ∧ f r = b := by
  obtain ⟨r, hr, hf⟩ := Option.map_eq_some_iff.1 h
  exact ⟨r, ⟨_, _, fourSlots_init, .of_exec (fun _ _ _ => trivial) hr⟩, hf⟩

/-- What the adaptors answer while nothing is wrong. -/
def fairAnswers : Answers :=
  { deviceSet := true, test := .success, testDone := true, flushTest := .success, flushTestDone := true,
    flushPost := .success, flushRequest := none, event := .success, sendComm := true, stopping := false, post := .success,
    request := false, batchPost := .success, posted := 0, requests := fun _ => false }

end FlagCX.Rma
