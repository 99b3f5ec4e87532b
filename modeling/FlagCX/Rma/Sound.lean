import FlagCX.Rma.Groups

/-!
# The scoreboards and the release groups in every run

`Sound` ties the scoreboards, the watermarks and the release groups of the proxy to its log. Every move keeps it
(`Move.sound`), so it holds in every run, whatever the adaptors answer (`Reachable.sound`).
-/

namespace FlagCX.Rma
open List Function Option

open Net Lib CompletionScoreboard
open KernelProxy (Domain CompletionStage)

variable {n : Nat} {c : Config n}

/-! ## The head of a scoreboard -/

/-- The watermark is what the scoreboard has retired, and no complete entry waits at the head. -/
structure Posted (sb : CompletionScoreboard) (doneSeq : UInt64) : Prop where
  next : sb.nextSequence.toNat = doneSeq.toNat + 1
  head : (sb.entryAt sb.nextSequence).state ≠ .complete

section Posted
variable {f f' : Fabric (Fin n)} {p q : Fin n} {ds : List Submission} {doneSeq : UInt64}

section

variable (h : Posted (f.boards q) doneSeq)
include h

theorem Posted.submit (context : SubmitContext) (group : Option Nat) :
    Posted ((f.call (.submit p context group)).2.boards q) doneSeq := by
  rcases eq_or_ne q p with rfl | hq
  swap
  · rw [Fabric.call, onBoard_ne hq]
    exact h
  rw [Fabric.call, onBoard_self]
  rcases trackSubmit_cases ⟨f.boards q, f.groups⟩ context group with ⟨-, he⟩ | ⟨-, -, -, -, -, hfree, he⟩
  · rw [he]
    exact h
  · rw [he]
    exact ⟨h.next, head_write (f.boards q) _ rfl rfl rfl (by simp) h.head⟩

theorem Posted.cancel (context : SubmitContext) : Posted ((f.call (.cancel p context)).2.boards q) doneSeq := by
  rcases eq_or_ne q p with rfl | hq
  swap
  · rw [Fabric.call, onBoard_ne hq]
    exact h
  rw [Fabric.call, onBoard_self]
  rcases trackCancel_cases ⟨f.boards q, f.groups⟩ context with ⟨-, he⟩ | ⟨-, -, he⟩
  · rw [he]
    exact h
  · rw [he]
    exact ⟨h.next, head_write (f.boards q) _ rfl rfl rfl (by simp [completionEntryReset]) h.head⟩

theorem Posted.submitAll (hs : Rma.submitAll p f ds = some f') : Posted (f'.boards q) doneSeq := by
  induction ds generalizing f with
  | nil =>
    cases hs
    exact h
  | cons d ds ih =>
    unfold Rma.submitAll at hs
    dsimp only at hs
    split_ifs at hs
    exact ih (h.submit _ _) hs

theorem Posted.cancelAll : Posted ((Rma.cancelAll p f ds).boards q) doneSeq := by
  induction ds with
  | nil => exact h
  | cons d ds ih => exact ih.cancel _

end

theorem sealed_boards {group : Option Nat} (hs : sealed? f group = some f') : f'.boards = f.boards := by
  cases group with
  | none =>
    cases hs
    rfl
  | some g =>
    unfold sealed? at hs
    dsimp only at hs
    split_ifs at hs
    cases hs
    rfl

theorem retire_next_le {sb : CompletionScoreboard} (h : sb.Shape) (k advanced : Nat) :
    sb.nextSequence.toNat ≤ (sb.retire k advanced).1.nextSequence.toNat := by
  induction k generalizing sb advanced with
  | zero => exact le_rfl
  | succ k ih =>
    by_cases hc : sb.headComplete
    · rw [CompletionScoreboard.retire, if_pos hc]
      have hnext : sb.retireHead.nextSequence.toNat = sb.nextSequence.toNat + 1 := h.next_succ hc
      have := ih (h.retireHead hc) (advanced + 1)
      omega
    · rw [CompletionScoreboard.retire, if_neg hc]

theorem Posted.completion (h : Posted (f.boards p) doneSeq) (hshape : (f.boards p).Shape) (context : SubmitContext)
    (result : Result) : Posted ((f.call (.completion p context result)).2.boards p)
      (let next := ((f.call (.completion p context result)).2.boards p).nextSequence
       if 0 < next ∧ doneSeq < next - 1 then next - 1 else doneSeq) := by
  dsimp only
  rw [Fabric.call, onBoard_self]
  have hidle : ¬ ((0 : UInt64) < (f.boards p).nextSequence ∧ doneSeq < (f.boards p).nextSequence - 1) := by
    rintro ⟨hpos, hlt⟩
    have hnext := h.next
    rw [UInt64.lt_iff_toNat_lt, UInt64.toNat_sub_of_le _ _ (UInt64.le_iff_toNat_le.2 (by rw [UInt64.toNat_one]; omega)),
      UInt64.toNat_one] at hlt
    omega
  rcases trackCompletion_cases ⟨f.boards p, f.groups⟩ context result with ⟨-, he⟩ | ⟨he, -⟩ | ⟨-, -, hp, -, he⟩
  · rw [he]
    rw [if_neg hidle]
    exact h
  · rw [he]
    rw [if_neg hidle]
    exact h
  · rw [he]
    have hcomplete := hshape.completeEntry result hp.occupied
    have hhead := hcomplete.retire_head (f.boards p).inFlight le_rfl 0
    have hle : (f.boards p).nextSequence.toNat ≤ _ := retire_next_le hcomplete (f.boards p).inFlight 0
    have hnext := h.next
    generalize ((f.boards p).completeEntry context.sequence result).retire (f.boards p).inFlight 0 = out at hhead hle ⊢
    have hone : (1 : UInt64) ≤ out.1.nextSequence := UInt64.le_iff_toNat_le.2 (by rw [UInt64.toNat_one]; omega)
    have hsub : (out.1.nextSequence - 1).toNat = out.1.nextSequence.toNat - 1 := UInt64.toNat_sub_of_le _ _ hone
    refine ⟨?_, hhead⟩
    split_ifs with hc
    · omega
    · have hpos : (0 : UInt64) < out.1.nextSequence := UInt64.lt_iff_toNat_lt.2 (by rw [UInt64.toNat_zero]; omega)
      have hge : ¬ doneSeq.toNat < out.1.nextSequence.toNat - 1 := by
        rw [← hsub, ← UInt64.lt_iff_toNat_lt]
        exact fun hlt => hc ⟨hpos, hlt⟩
      omega

end Posted

/-! ## The invariant -/

def Enrolled (r : Roster (Fin n)) (log : List (Note n)) (p : Fin n) (d : Submission) : Prop :=
  ∃ m ∈ r.members, m.board = p ∧ m.sequence = d.sequence ∧ (m.standing = .pending ∨
    ∃ result tracked, m.standing = .completed result ∧ .completed p d result tracked ∈ log)

/-- The group agrees with its roster, the roster has the published members, a sealed group is not held by a call, and the
group of a published release is sealed. -/
structure GroupBook (x : Core n) (log : List (Note n)) (g : Nat) (r : Roster (Fin n)) : Prop where
  counted : Counted x.fabric g
  ledger : Ledgered g x.fabric r
  members : ∀ p d awaits, .published p d awaits ∈ log → d.trackedGroup = some g → Enrolled r log p d
  shut : r.sealed = true → ∀ p e, (x.peers p).lock = .admitted e → e.group ≠ some g
  closed : ∀ p d awaits, .published p d awaits ∈ log → d.type = .release → d.releaseGroup = some g → r.sealed = true

/-- A call that holds the lock has its group to itself. -/
structure GroupHeld (x : Core n) (log : List (Note n)) (p : Fin n) (g : Nat) : Prop where
  count : g < x.groupCount
  unpublished : ∀ q d awaits, .published q d awaits ∈ log → d.releaseGroup ≠ some g
  alone : ∀ q e, (x.peers q).lock = .admitted e → e.group = some g → q = p

/-- The scoreboards, the watermarks and the groups agree with the log. -/
structure Sound (c : Config n) (x : Core n) (log : List (Note n)) : Prop where
  books : ∀ p, Book c (x.peers p) (view p log)
  origin : ∀ p, Origin c (x.peers p) (view p log)
  boards : ∀ p, Tracked (x.fabric.boards p) (published (view p log)) (completions (view p log))
  posted : ∀ p, Posted (x.fabric.boards p) (x.peers p).doneSeq
  accepted : ∀ p d result tracked, .completed p d result tracked ∈ log → tracked = .success
  below : ∀ p d awaits, .published p d awaits ∈ log → ∀ g, d.releaseGroup = some g → g < x.groupCount
  held : ∀ p e g, (x.peers p).lock = .admitted e → e.group = some g → GroupHeld x log p g
  groups : ∀ g < x.groupCount, ∃ r, GroupBook x log g r

variable {awaits : Option UInt64} {result : Result}

section Log
variable {log ns : List (Note n)} {p : Fin n} {d : Submission}

theorem mem_append_published (h : published ns = []) : .published p d awaits ∈ log ++ ns ↔ .published p d awaits ∈ log := by
  refine ⟨fun hm => (mem_append.1 hm).resolve_right fun hin => ?_, mem_append_left _⟩
  exact absurd (filterMap_eq_nil_iff.1 h _ hin) (by simp [Note.publishes])

theorem mem_append_completed (h : completions ns = []) {tracked : Result} :
    .completed p d result tracked ∈ log ++ ns ↔ .completed p d result tracked ∈ log := by
  refine ⟨fun hm => (mem_append.1 hm).resolve_right fun hin => ?_, mem_append_left _⟩
  exact absurd (filterMap_eq_nil_iff.1 h _ hin) (by simp [Note.completes])

theorem completions_view (h : completions ns = []) (q : Fin n) : completions (view q ns) = [] := by
  refine filterMap_eq_nil_iff.2 fun v hv => ?_
  exact filterMap_eq_nil_iff.1 h v (mem_view.1 hv).1

theorem Enrolled.append {r : Roster (Fin n)} (h : Enrolled r log p d) (ns : List (Note n)) : Enrolled r (log ++ ns) p d := by
  obtain ⟨m, hm, hb, hq, hst⟩ := h
  refine ⟨m, hm, hb, hq, hst.imp_right ?_⟩
  rintro ⟨result, tracked, hs, hin⟩
  exact ⟨result, tracked, hs, mem_append_left _ hin⟩

theorem trackedGroup_eq {g : Nat} (h : d.trackedGroup = some g) : d.releaseGroup = some g := by
  unfold Submission.trackedGroup at h
  split_ifs at h
  exact h

theorem trackedGroup_data {g : Nat} (h : d.trackedGroup = some g) : d.isData = true := by
  unfold Submission.trackedGroup at h
  split_ifs at h with hdata
  exact hdata

end Log

theorem ApiCall.descs_group (call : ApiCall) (group : Nat) (groupId : UInt64) :
    ∀ d ∈ (call.enqueue group groupId).descs, d.releaseGroup = (call.enqueue group groupId).group := by
  intro d hd
  cases call with
  | put x ready key independent | get x key independent event | getIpc | putValue value off idx => rw [mem_singleton.1 hd]; rfl
  | batchPut xs =>
    obtain ⟨x, -, rfl⟩ := mem_map.1 hd
    rfl
  | putSignal x off value ready key independent =>
    rcases mem_append.1 hd with hm | hm
    · split_ifs at hm
      · rw [mem_singleton.1 hm]
        rfl
      · exact absurd hm not_mem_nil
    · rw [mem_singleton.1 hm]
      rfl
  | batchPutSignal xs off value key independent =>
    rcases mem_append.1 hd with hm | hm
    · obtain ⟨x, -, rfl⟩ := mem_map.1 hm
      rfl
    · rw [mem_singleton.1 hm]
      rfl

variable {peer : Peer}

section Moves
variable {x y : Core n} {a : Action n} {log ns : List (Note n)}

/-- A move that leaves the fabric, the watermarks and the locks, and neither publishes nor completes. A lock may be given
back. -/
structure Calm (x y : Core n) (ns : List (Note n)) : Prop where
  fabric : y.fabric = x.fabric
  groupCount : y.groupCount = x.groupCount
  doneSeq : ∀ q, (y.peers q).doneSeq = (x.peers q).doneSeq
  lock : ∀ q e, (y.peers q).lock = .admitted e → (x.peers q).lock = .admitted e
  published : published ns = []
  completions : completions ns = []

variable {p : Fin n}

theorem GroupHeld.keep {g : Nat} (h : GroupHeld x log p g) (hcount : x.groupCount ≤ y.groupCount)
    (hpub : published ns = []) (hlock : ∀ q e, (y.peers q).lock = .admitted e → (x.peers q).lock = .admitted e) :
    GroupHeld y (log ++ ns) p g := by
  refine ⟨lt_of_lt_of_le h.count hcount, fun q d awaits hd => ?_, fun q e he hg => h.alone q e (hlock q e he) hg⟩
  exact h.unpublished q d awaits ((mem_append_published hpub).1 hd)

theorem Sound.calm (h : Sound c x log) (hm : Calm x y ns) (hb : ∀ p, Book c (y.peers p) (view p (log ++ ns)))
    (ho : ∀ p, Origin c (y.peers p) (view p (log ++ ns))) : Sound c y (log ++ ns) := by
  refine ⟨hb, ho, fun p => ?_, fun p => ?_, fun p d result tracked hd => ?_, fun p d awaits hd g hg => ?_,
    fun p e g he hg => ?_, fun g hg => ?_⟩
  · rw [hm.fabric, view_append, published_append, completions_append, published_view hm.published,
      completions_view hm.completions, append_nil, append_nil]
    exact h.boards p
  · rw [hm.fabric, hm.doneSeq]
    exact h.posted p
  · exact h.accepted p d result tracked ((mem_append_completed hm.completions).1 hd)
  · rw [hm.groupCount]
    exact h.below p d awaits ((mem_append_published hm.published).1 hd) g hg
  · exact (h.held p e g (hm.lock p e he) hg).keep hm.groupCount.ge hm.published hm.lock
  · rw [hm.groupCount] at hg
    obtain ⟨r, hr⟩ := h.groups g hg
    refine ⟨r, by rw [hm.fabric]; exact hr.counted, by rw [hm.fabric]; exact hr.ledger, fun p d awaits hd htg => ?_,
      fun hs p e he => ?_, fun p d awaits hd => ?_⟩
    · exact (hr.members p d awaits ((mem_append_published hm.published).1 hd) htg).append ns
    · exact hr.shut hs p e (hm.lock p e he)
    · exact hr.closed p d awaits ((mem_append_published hm.published).1 hd)

variable {e : Enqueue}

theorem Sound.admitCall (h : Sound c x log) (hgroup : e.group = none)
    (hb : ∀ q, Book c ((x.setPeer p { x.peers p with lock := .admitted e }).peers q) (view q log))
    (ho : ∀ q, Origin c ((x.setPeer p { x.peers p with lock := .admitted e }).peers q) (view q log)) :
    Sound c (x.setPeer p { x.peers p with lock := .admitted e }) log := by
  have hlock : ∀ q e' g, ((x.setPeer p { x.peers p with lock := .admitted e }).peers q).lock = .admitted e' →
      e'.group = some g → (x.peers q).lock = .admitted e' := by
    intro q e' g he hg
    rw [Core.setPeer_peers] at he
    split_ifs at he with hq
    · cases he
      rw [hgroup] at hg
      cases hg
    · exact he
  have hdone : ∀ q, ((x.setPeer p { x.peers p with lock := .admitted e }).peers q).doneSeq = (x.peers q).doneSeq := by
    intro q
    rw [Core.setPeer_peers]
    split_ifs with hq
    · rw [hq]
    · rfl
  refine ⟨hb, ho, h.boards, fun q => ?_, h.accepted, h.below, fun q e' g he hg => ?_, fun g hg => ?_⟩
  · rw [hdone]
    exact h.posted q
  · obtain ⟨hcount, hun, halone⟩ := h.held q e' g (hlock q e' g he hg) hg
    exact ⟨hcount, hun, fun q' e'' he' hg' => halone q' e'' (hlock q' e'' g he' hg') hg'⟩
  · obtain ⟨r, hr⟩ := h.groups g hg
    exact ⟨r, hr.counted, hr.ledger, hr.members, fun hs q e' he hg' => hr.shut hs q e' (hlock q e' g he hg') hg',
      hr.closed⟩

theorem Sound.admitGroup (h : Sound c x log) {groupId : UInt64} {group : ReleaseGroup}
    (hgroup : e.group = some x.groupCount) (hinit : releaseGroupInit groupId Rma.generation = .ok group)
    (hy : y = { x.setPeer p { x.peers p with lock := .admitted e } with
      fabric := x.fabric.onGroup x.groupCount group, groupCount := x.groupCount + 1 })
    (hb : ∀ q, Book c (y.peers q) (view q log)) (ho : ∀ q, Origin c (y.peers q) (view q log)) : Sound c y log := by
  have hpeer : ∀ q, y.peers q = if q = p then { x.peers p with lock := .admitted e } else x.peers q := by
    intro q
    rw [hy]
    exact update_apply ..
  have hlock : ∀ q e', (y.peers q).lock = .admitted e' → (q = p ∧ e' = e) ∨ (x.peers q).lock = .admitted e' := by
    intro q e' he
    rw [hpeer] at he
    split_ifs at he with hq
    · cases he
      exact .inl ⟨hq, rfl⟩
    · exact .inr he
  have hdone : ∀ q, (y.peers q).doneSeq = (x.peers q).doneSeq := by
    intro q
    rw [hpeer]
    split_ifs with hq
    · rw [hq]
    · rfl
  have hboards : ∀ q, y.fabric.boards q = x.fabric.boards q := by
    intro q
    rw [hy]
    rfl
  have hcount : y.groupCount = x.groupCount + 1 := by rw [hy]
  have hfabric : y.fabric = x.fabric.onGroup x.groupCount group := by rw [hy]
  -- no lock was taken for a group of this number, and no entry refers to it
  have hfresh : ∀ q e' g, (x.peers q).lock = .admitted e' → e'.group = some g → g < x.groupCount :=
    fun q e' g he hg => (h.held q e' g he hg).count
  have hnone : ∀ q, ∀ j < (x.fabric.boards q).capacity.toNat, ¬ RefersTo x.groupCount ((x.fabric.boards q).entries j) := by
    rintro q j hj ⟨hp, hg⟩
    obtain ⟨d, hd, -, hgroup', -⟩ := (h.boards q).live j hj (by simp [Occupied, hp])
    obtain ⟨awaits, hpub⟩ := mem_published.1 hd
    exact absurd (h.below q d awaits hpub _ (trackedGroup_eq (hgroup'.symm.trans hg))) (lt_irrefl _)
  refine ⟨hb, ho, fun q => ?_, fun q => ?_, h.accepted, fun q d awaits hd g hg => ?_, fun q e' g he hg => ?_,
    fun g hg => ?_⟩
  · rw [hboards]
    exact h.boards q
  · rw [hboards, hdone]
    exact h.posted q
  · rw [hcount]
    exact Nat.lt_succ_of_lt (h.below q d awaits hd g hg)
  · rcases hlock q e' he with ⟨rfl, rfl⟩ | hold
    · have hgc : g = x.groupCount := by
        rw [hgroup] at hg
        exact (some.inj hg).symm
      subst hgc
      refine ⟨by rw [hcount]; exact Nat.lt_succ_self _, fun q' d awaits hd hdg => ?_, fun q' e'' he' hg' => ?_⟩
      · exact absurd (h.below q' d awaits hd _ hdg) (lt_irrefl _)
      · rcases hlock q' e'' he' with ⟨rfl, -⟩ | hold'
        · rfl
        · exact absurd (hfresh q' e'' _ hold' hg') (lt_irrefl _)
    · obtain ⟨hlt, hun, halone⟩ := h.held q e' g hold hg
      refine ⟨by rw [hcount]; exact Nat.lt_succ_of_lt hlt, hun, fun q' e'' he' hg' => ?_⟩
      rcases hlock q' e'' he' with ⟨-, rfl⟩ | hold'
      · rw [hgroup] at hg'
        exact absurd (some.inj hg') (ne_of_gt hlt)
      · exact halone q' e'' hold' hg'
  · rw [hcount] at hg
    rcases Nat.lt_succ_iff_lt_or_eq.1 hg with hlt | rfl
    · obtain ⟨r, hr⟩ := h.groups g hlt
      have hsame : (x.fabric.onGroup x.groupCount group).groups g = x.fabric.groups g := update_of_ne (ne_of_lt hlt) _ _
      refine ⟨r, by rw [hfabric, Counted, hsame]; exact hr.counted,
        by rw [hfabric]; exact hr.ledger.otherGroup (ne_of_gt hlt) _, hr.members, fun hs q e' he hg' => ?_, hr.closed⟩
      rcases hlock q e' he with ⟨-, rfl⟩ | hold
      · rw [hgroup] at hg'
        exact absurd (some.inj hg') (ne_of_gt hlt)
      · exact hr.shut hs q e' hold hg'
    · refine ⟨⟨[], false⟩, ?_, ?_, fun q d awaits hd hdg => ?_, by rintro ⟨⟩, fun q d awaits hd _ hdg => ?_⟩
      · have hself : (x.fabric.onGroup x.groupCount group).groups x.groupCount = group := update_self ..
        rw [hfabric, Counted, hself]
        unfold releaseGroupInit at hinit
        split_ifs at hinit
        cases hinit
        exact UInt32.le_refl _
      · rw [hfabric]
        exact ledgered_fresh (fun q => (h.boards q).shape) hnone hinit
      · exact absurd (h.below q d awaits hd _ (trackedGroup_eq hdg)) (lt_irrefl _)
      · exact absurd (h.below q d awaits hd _ hdg) (lt_irrefl _)

theorem Book.numbered_number {l : List (Note n)} (h : Book c peer l) {ds : List Desc} {k : Nat}
    (hmax : ∀ d ∈ ((number peer.opSeq ds).map (·.toSubmission)).take k, d.sequence ≠ uint64Max) :
    Numbered (published l).length (((number peer.opSeq ds).map (·.toSubmission)).take k) := by
  have hcut : ((number peer.opSeq ds).map (·.toSubmission)).take k =
      (number peer.opSeq (ds.take k)).map (·.toSubmission) := by
    refine ext_getElem? fun i => ?_
    rw [getElem?_take, getElem?_map, getElem?_map, number_getElem?, number_getElem?, getElem?_take]
    split_ifs <;> rfl
  rw [hcut] at hmax ⊢
  intro i d hi
  rw [getElem?_map, map_eq_some_iff] at hi
  obtain ⟨d', hd', rfl⟩ := hi
  obtain ⟨hseq, -, hsame, hgen⟩ := h.number_spec (fun e he => hmax _ (mem_map_of_mem he)) hd'
  rw [hsame]
  exact ⟨hseq, hgen⟩

section

variable (h : Sound c x log) (hlock : (x.peers p).lock = .admitted e)
include h hlock

theorem Sound.prepared_group : ∀ d ∈ (number (x.peers p).opSeq e.descs).map (·.toSubmission), d.releaseGroup = e.group := by
  intro d hd
  obtain ⟨d', hd', rfl⟩ := mem_map.1 hd
  obtain ⟨i, hi⟩ := getElem?_of_mem hd'
  rw [number_getElem?, map_eq_some_iff] at hi
  obtain ⟨e', he', rfl⟩ := hi
  obtain ⟨call, group, groupId, rfl, -⟩ := (h.origin p).lock e hlock
  exact call.descs_group group groupId e' (mem_of_getElem? he')

theorem Sound.open_group : ∀ d ∈ (number (x.peers p).opSeq e.descs).map (·.toSubmission), ∀ g, d.trackedGroup = some g →
      Opened x.fabric g := by
  intro d hd g hg
  have heg : e.group = some g := (h.prepared_group hlock d hd).symm.trans (trackedGroup_eq hg)
  obtain ⟨r, hr⟩ := h.groups g (h.held p e g hlock heg).count
  refine ⟨hr.counted, r, hr.ledger, ?_⟩
  by_contra hs
  exact hr.shut (by simpa using hs) p e hlock heg

theorem Sound.publish {f f' : Fabric (Fin n)}
    (hsubmit : submitAll p x.fabric ((number (x.peers p).opSeq e.descs).map (·.toSubmission)) = some f)
    (hseal : sealed? f e.group = some f')
    (hns : ns = (number (x.peers p).opSeq e.descs).map fun d => .published p d.toSubmission awaits)
    (hy : y = { x.setPeer p ((x.peers p).publish c e) with fabric := f' })
    (hb : ∀ q, Book c (y.peers q) (view q (log ++ ns))) (ho : ∀ q, Origin c (y.peers q) (view q (log ++ ns))) :
    Sound c y (log ++ ns) := by
  have hpeer : ∀ q, y.peers q = if q = p then (x.peers p).publish c e else x.peers q := by
    intro q
    rw [hy]
    exact update_apply ..
  have hfabric : y.fabric = f' := by rw [hy]
  have hcount : y.groupCount = x.groupCount := by rw [hy]; rfl
  have hlock' : ∀ q e', (y.peers q).lock = .admitted e' → q ≠ p ∧ (x.peers q).lock = .admitted e' := by
    intro q e' he
    rw [hpeer] at he
    split_ifs at he with hq
    · have hne : ((x.peers p).publish c e).lock ≠ .admitted e' := by
        show (if e.isIpc then Lock.arming (x.peers p).pi else .free) ≠ _
        split_ifs <;> simp
      exact absurd he hne
    · exact ⟨hq, he⟩
  have hdone : ∀ q, (y.peers q).doneSeq = (x.peers q).doneSeq := by
    intro q
    rw [hpeer]
    split_ifs with hq
    · rw [hq]
      rfl
    · rfl
  -- what the notes say
  obtain ⟨h1, h2, h3⟩ := publish_submissions (number (x.peers p).opSeq e.descs) p awaits
  rw [← hns] at h1 h2 h3
  have hpeers : ∀ v ∈ ns, v.peer = p := by
    intro v hv
    rw [hns] at hv
    obtain ⟨d, -, rfl⟩ := mem_map.1 hv
    rfl
  have hnew : ∀ q d aw, .published q d aw ∈ ns → q = p ∧ d ∈ (number (x.peers p).opSeq e.descs).map (·.toSubmission) := by
    intro q d aw hd
    rw [hns] at hd
    obtain ⟨d', hd', heq⟩ := mem_map.1 hd
    cases heq
    exact ⟨rfl, mem_map_of_mem hd'⟩
  have hgroup := h.prepared_group hlock
  have hnum : Numbered (published (view p log)).length ((number (x.peers p).opSeq e.descs).map (·.toSubmission)) := by
    have hall : ((number (x.peers p).opSeq e.descs).map (·.toSubmission)).take (number (x.peers p).opSeq e.descs).length =
        (number (x.peers p).opSeq e.descs).map (·.toSubmission) := take_of_length_le (by rw [length_map])
    rw [← hall]
    exact (h.books p).numbered_number fun d hd => submitAll_sequence hsubmit d (mem_of_mem_take hd)
  obtain ⟨htracked, hother⟩ := (h.boards p).submitAll hnum hsubmit
  have hsb := sealed_boards hseal
  refine ⟨hb, ho, fun q => ?_, fun q => ?_, fun q d result tracked hd => ?_, fun q d aw hd g hg => ?_,
    fun q e' g he hg => ?_, fun g hg => ?_⟩
  · rw [hfabric, hsb, view_append, published_append, completions_append, completions_view h3, append_nil]
    rcases eq_or_ne q p with rfl | hq
    · rw [view_of_peer hpeers, h1]
      exact htracked
    · rw [view_of_ne hpeers hq, published_nil, append_nil, hother q hq]
      exact h.boards q
  · rw [hfabric, hsb, hdone]
    exact (h.posted q).submitAll hsubmit
  · exact h.accepted q d result tracked ((mem_append_completed h3).1 hd)
  · rw [hcount]
    rcases mem_append.1 hd with hd | hd
    · exact h.below q d aw hd g hg
    · obtain ⟨-, hin⟩ := hnew q d aw hd
      exact (h.held p e g hlock ((hgroup d hin).symm.trans hg)).count
  · obtain ⟨hq, hold⟩ := hlock' q e' he
    obtain ⟨hlt, hun, halone⟩ := h.held q e' g hold hg
    refine ⟨by rw [hcount]; exact hlt, fun q' d aw hd hdg => ?_, fun q' e'' he' hg' => ?_⟩
    · rcases mem_append.1 hd with hd | hd
      · exact hun q' d aw hd hdg
      · obtain ⟨-, hin⟩ := hnew q' d aw hd
        exact hq (halone p e hlock ((hgroup d hin).symm.trans hdg)).symm
    · exact halone q' e'' (hlock' q' e'' he').2 hg'
  · rw [hcount] at hg
    obtain ⟨r, hr⟩ := h.groups g hg
    obtain ⟨ms, hms, hjoin⟩ := ledgered_submitAll hr.ledger hsubmit
    refine ⟨_, by rw [hfabric]; exact (counted_kept _).sealed ((counted_kept _).submitAll hr.counted hsubmit) hseal,
      by rw [hfabric]; exact ledgered_sealed hms hseal, fun q d aw hd hdg => ?_, fun hs q e' he hg' => ?_,
      fun q d aw hd ht hdg => ?_⟩
    · rcases mem_append.1 hd with hd | hd
      · obtain ⟨m, hm, hrest⟩ := (hr.members q d aw hd hdg).append ns
        exact ⟨m, mem_append_left _ hm, hrest⟩
      · obtain ⟨rfl, hin⟩ := hnew q d aw hd
        exact ⟨_, mem_append_right _ (hjoin d hin hdg), rfl, rfl, .inl rfl⟩
    · obtain ⟨hq, hold⟩ := hlock' q e' he
      have hs' : r.sealed = true ∨ e.group = some g := by simpa using hs
      rcases hs' with hs' | heg
      · exact hr.shut hs' q e' hold hg'
      · exact hq ((h.held p e g hlock heg).alone q e' hold hg')
    · rcases mem_append.1 hd with hd | hd
      · simp [hr.closed q d aw hd ht hdg]
      · have heg : e.group = some g := (hgroup d (hnew q d aw hd).2).symm.trans hdg
        simp [heg]

theorem Sound.unpublish {k : Nat} {f : Fabric (Fin n)}
    (hsubmit : submitAll p x.fabric (((number (x.peers p).opSeq e.descs).map (·.toSubmission)).take k) = some f)
    (hy : y = { x.setPeer p { x.peers p with lock := .free } with fabric := cancelAll p f (((number (x.peers p).opSeq e.descs).map (·.toSubmission)).take k) })
    (hb : ∀ q, Book c (y.peers q) (view q log)) (ho : ∀ q, Origin c (y.peers q) (view q log)) : Sound c y log := by
  have hpeer : ∀ q, y.peers q = if q = p then { x.peers p with lock := .free } else x.peers q := by
    intro q
    rw [hy]
    exact update_apply ..
  have hlock' : ∀ q e', (y.peers q).lock = .admitted e' → (x.peers q).lock = .admitted e' := by
    intro q e' he
    rw [hpeer] at he
    split_ifs at he
    exact he
  have hdone : ∀ q, (y.peers q).doneSeq = (x.peers q).doneSeq := by
    intro q
    rw [hpeer]
    split_ifs with hq
    · rw [hq]
    · rfl
  generalize hds : ((number (x.peers p).opSeq e.descs).map (·.toSubmission)).take k = ds at hsubmit hy
  have hsub : ∀ d ∈ ds, d ∈ (number (x.peers p).opSeq e.descs).map (·.toSubmission) := by
    rw [← hds]
    exact fun d hd => mem_of_mem_take hd
  have hfabric : y.fabric = cancelAll p f ds := by rw [hy]
  have hcount : y.groupCount = x.groupCount := by rw [hy]; rfl
  have hnum : Numbered (published (view p log)).length ds := by
    rw [← hds]
    exact (h.books p).numbered_number (by rw [hds]; exact submitAll_sequence hsubmit)
  obtain ⟨htracked, hother⟩ := (h.boards p).submitAll hnum hsubmit
  obtain ⟨hback, hrest⟩ := htracked.cancelAll (h.boards p).closed fun d hd g hg => by
    obtain ⟨hc, r, hr, hopen⟩ := h.open_group hlock d (hsub d hd) g hg
    obtain ⟨ms, hms, -⟩ := ledgered_submitAll hr hsubmit
    exact ⟨(counted_kept _).submitAll hc hsubmit, _, hms, hopen⟩
  refine ⟨hb, ho, fun q => ?_, fun q => ?_, h.accepted, ?_, fun q e' g he hg => ?_, fun g hg => ?_⟩
  · rw [hfabric]
    rcases eq_or_ne q p with rfl | hq
    · exact hback
    · rw [hrest q hq, hother q hq]
      exact h.boards q
  · rw [hfabric, hdone]
    exact ((h.posted q).submitAll hsubmit).cancelAll
  · rw [hcount]
    exact h.below
  · obtain ⟨hlt, hun, halone⟩ := h.held q e' g (hlock' q e' he) hg
    exact ⟨by rw [hcount]; exact hlt, hun, fun q' e'' he' hg' => halone q' e'' (hlock' q' e'' he') hg'⟩
  · rw [hcount] at hg
    obtain ⟨r, hr⟩ := h.groups g hg
    obtain ⟨ms, hms, -⟩ := ledgered_submitAll hr.ledger hsubmit
    obtain ⟨r', hr', hsame, hkept⟩ : ∃ r', Ledgered g (cancelAll p f ds) r' ∧ _ := ledgered_cancelAll hms
    refine ⟨r', by rw [hfabric]; exact (counted_kept _).cancelAll ((counted_kept _).submitAll hr.counted hsubmit),
      by rw [hfabric]; exact hr', fun q d aw hd hdg => ?_, fun hs q e' he hg' => ?_,
      fun q d aw hd ht hdg => hsame.trans (hr.closed q d aw hd ht hdg)⟩
    · obtain ⟨m, hm, hbd, hq, hst⟩ := hr.members q d aw hd hdg
      refine ⟨m, hkept m (mem_append_left _ hm) fun d' hd' hmp hseq => ?_, hbd, hq, hst⟩
      -- what was published has a smaller number than what is cancelled
      have hqp : q = p := hbd.symm.trans hmp
      subst hqp
      have hlow := ((h.boards q).sequence (mem_published.2 ⟨aw, hd⟩)).2
      obtain ⟨i, hi⟩ := getElem?_of_mem hd'
      have hhigh := (hnum i d' hi).1
      rw [← hq, hseq] at hlow
      omega
    · exact hr.shut (hsame.symm.trans hs) q e' (hlock' q e' he) hg'

end

theorem Sound.complete (h : Sound c x log) {d : Submission}
    {pre : List (Note n)} (hd : d ∈ published (view p log)) (hopen : ∀ v ∈ completions (view p log), v.1 ≠ d)
    (hy : y = (x.setPeer p peer).complete p d result) (hlock : peer.lock = (x.peers p).lock)
    (hdone : peer.doneSeq = (x.peers p).doneSeq) (hpre : published pre = []) (hpre' : completions pre = [])
    (hpeers : ∀ v ∈ pre, v.peer = p)
    (hns : ns = pre ++ [.completed p d result (x.tracked p d result)])
    (hb : ∀ q, Book c (y.peers q) (view q (log ++ ns))) (ho : ∀ q, Origin c (y.peers q) (view q (log ++ ns))) :
    Sound c y (log ++ ns) := by
  have hf : ¬ Final (completions (view p log)) d := by
    rintro ⟨result', tracked, hm, -⟩
    exact hopen _ hm rfl
  obtain ⟨awaits, hpub⟩ := mem_published.1 hd
  have hgroups : ∀ g, d.trackedGroup = some g → ∃ r, Ledgered g x.fabric r := by
    intro g hg
    obtain ⟨r, hr⟩ := h.groups g (h.below p d awaits hpub g (trackedGroup_eq hg))
    exact ⟨r, hr.ledger⟩
  have hs : x.tracked p d result = .success := (h.boards p).completion_success hd hf result hgroups
  have hfabric : y.fabric = (x.fabric.call (.completion p d.submitContext result)).2 := by rw [hy]; rfl
  have hcount : y.groupCount = x.groupCount := by rw [hy]; rfl
  have hself : ∀ q, (y.peers q).lock = (x.peers q).lock := by
    intro q
    obtain ⟨doneSeq, hpe⟩ := x.complete_peers p peer d result
    rw [hy, hpe]
    exact Core.setPeer_field Peer.lock (show Peer.lock { peer with doneSeq := doneSeq } = _ from hlock) q
  have hpubs : published ns = [] := by rw [hns, published_append, hpre]; rfl
  have hcomp : completions ns = [(d, result, .success)] := by rw [hns, completions_append, hpre', hs]; rfl
  have hnspeers : ∀ v ∈ ns, v.peer = p := by
    intro v hv
    rw [hns] at hv
    rcases mem_append.1 hv with hv | hv
    · exact hpeers v hv
    · rw [mem_singleton.1 hv]
      rfl
  refine ⟨hb, ho, fun q => ?_, fun q => ?_, fun q e result' tracked he => ?_, fun q e aw he g hg => ?_,
    fun q e g he hg => ?_, fun g hg => ?_⟩
  · rw [hfabric, view_append, published_append, completions_append, published_view hpubs, append_nil]
    rcases eq_or_ne q p with rfl | hq
    · rw [view_of_peer hnspeers, hcomp]
      show Tracked ((x.fabric.onBoard q _).boards q) _ _
      rw [onBoard_self]
      by_cases hr : result = .inProgress
      · subst hr
        rcases trackCompletion_cases ⟨x.fabric.boards q, x.fabric.groups⟩ d.submitContext .inProgress with
          ⟨hno, -⟩ | ⟨he, -⟩ | ⟨-, hne, -⟩
        · exact absurd hs hno
        · rw [he]
          exact (h.boards q).concat_open hd
        · exact absurd rfl hne
      · exact ((h.boards q).completion hd hf hr hs).1
    · rw [view_of_ne hnspeers hq, completions_nil, append_nil]
      show Tracked ((x.fabric.onBoard p _).boards q) _ _
      rw [onBoard_ne hq]
      exact h.boards q
  · rw [hfabric]
    rcases eq_or_ne q p with rfl | hq
    · have hstep := (h.posted q).completion (h.boards q).shape d.submitContext result
      have hval : (y.peers q).doneSeq = (let next :=
          ((x.fabric.call (.completion q d.submitContext result)).2.boards q).nextSequence
          if 0 < next ∧ (x.peers q).doneSeq < next - 1 then next - 1 else (x.peers q).doneSeq) := by
        rw [hy]
        unfold Core.complete
        dsimp only
        rw [Core.setPeer_self, update_self]
        rw [hdone]
        rfl
      rw [hval]
      exact hstep
    · have hsame : (y.peers q).doneSeq = (x.peers q).doneSeq := by
        obtain ⟨doneSeq, hpe⟩ := x.complete_peers p peer d result
        rw [hy, hpe, Core.setPeer_peers, if_neg hq]
      show Posted ((x.fabric.onBoard p _).boards q) _
      rw [onBoard_ne hq, hsame]
      exact h.posted q
  · rcases mem_append.1 he with he | he
    · exact h.accepted q e result' tracked he
    · have hv := (mem_completions (p := q)).2 he
      have hq : q = p := hnspeers _ he
      subst hq
      rw [view_of_peer hnspeers, hcomp, mem_singleton] at hv
      exact congrArg (·.2.2) hv
  · rw [hcount]
    exact h.below q e aw ((mem_append_published hpubs).1 he) g hg
  · exact (h.held q e g ((hself q).symm.trans he) hg).keep hcount.ge hpubs fun q e he => (hself q).symm.trans he
  · rw [hcount] at hg
    obtain ⟨r, hr⟩ := h.groups g hg
    obtain ⟨r', hr', hsame, hkept⟩ : ∃ r', Ledgered g (x.fabric.call (.completion p d.submitContext result)).2 r' ∧ _ :=
      ledgered_completion hr.ledger result
    refine ⟨r', ?_, by rw [hfabric]; exact hr', fun q e aw he hge => ?_, fun hs' q e he hg' => ?_,
      fun q e aw he ht hge => hsame.trans (hr.closed q e aw ((mem_append_published hpubs).1 he) ht hge)⟩
    · rw [hfabric]
      exact hr.counted.call (k := .completion p d.submitContext result) trivial
    · have he' := (mem_append_published hpubs).1 he
      obtain ⟨m, hm, hbd, hq, hst⟩ := (hr.members q e aw he' hge).append ns
      rcases hkept m hm with hin | ⟨hmp, hmq, hpend, hin⟩
      · exact ⟨m, hin, hbd, hq, hst⟩
      · -- the member is that of the completed operation
        have hqp : q = p := hbd.symm.trans hmp
        subst hqp
        have hed : e = d := (h.boards q).sequence_inj (mem_published.2 ⟨aw, he'⟩) hd (hq.symm.trans hmq)
        subst hed
        refine ⟨_, hin, hbd, hq, .inr ⟨result, .success, rfl, ?_⟩⟩
        rw [hns, ← hs]
        exact mem_append_right _ (mem_append_right _ (mem_singleton_self _))
    · exact hr.shut (hsame.symm.trans hs') q e ((hself q).symm.trans he) hg'

theorem calm_setPeer (hlock : peer.lock = (x.peers p).lock ∨ ∀ e, peer.lock ≠ .admitted e)
    (hdone : peer.doneSeq = (x.peers p).doneSeq) (hpub : published ns = []) (hcomp : completions ns = []) :
    Calm x (x.setPeer p peer) ns := by
  refine ⟨rfl, rfl, Core.setPeer_field Peer.doneSeq hdone, fun q e he => ?_, hpub, hcomp⟩
  rw [Core.setPeer_peers] at he
  split_ifs at he with hq
  · rcases hlock with hl | hl
    · rw [hq, ← hl]
      exact he
    · exact absurd he (hl e)
  · exact he

theorem Move.sound (h : Move c x a y ns) (hs : Sound c x log) : Sound c y (log ++ ns) := by
  have hb := h.books hs.books
  have ho := h.origin hs.origin
  cases h with
  | admitCall p call groupId e he hlock hvalid hfits hspace hgroup =>
    rw [append_nil] at hb ho ⊢
    exact hs.admitCall hgroup hb ho
  | admitGroup p call groupId e group he hlock hvalid hfits hspace hgroup hinit =>
    rw [append_nil] at hb ho ⊢
    exact hs.admitGroup hgroup hinit rfl hb ho
  | publish p e f f' hlock hsubmit hseal => exact hs.publish hlock hsubmit hseal rfl rfl hb ho
  | unpublish p e k f hlock hsubmit =>
    rw [append_nil] at hb ho ⊢
    exact hs.unpublish hlock hsubmit rfl hb ho
  | arm p idx ipcStatus hlock => exact hs.calm (calm_setPeer (.inr (by simp)) rfl rfl rfl) hb ho
  | signal p k seq hk | openDomain | prune | takeTracked p h' request index getSequence domain
  | dataDone p i d result => exact hs.calm (calm_setPeer (.inl rfl) rfl rfl rfl) hb ho
  | hand p ds call result staging =>
    have hq : Quiet (ds.map fun d => (.handed p d.toSubmission (call d) result : Note n)) := by
      refine quiet_of_forall fun v hv => ?_
      obtain ⟨d, -, rfl⟩ := mem_map.1 hv
      exact ⟨rfl, rfl, rfl⟩
    exact hs.calm (calm_setPeer (.inl rfl) rfl hq.published hq.completions) hb ho
  | take p hds ds =>
    obtain ⟨-, h2, h3⟩ := take_submissions ds p
    exact hs.calm (calm_setPeer (.inl rfl) rfl h2 h3) hb ho
  | domain p index ans pendingError =>
    have hq : Quiet (walkDomain p (x.peers p) index ans pendingError).notes :=
      quiet_flush (walkDomain_walks (x.peers p) pendingError).2
    exact hs.calm (calm_setPeer (.inl rfl) rfl hq.published hq.completions) hb ho
  | deliver p i d => exact hs.calm ⟨rfl, rfl, fun _ => rfl, fun _ _ he => he, rfl, rfl⟩ hb ho
  | retire p i d result hi =>
    obtain ⟨hd, hopen⟩ := (hs.books p).open_progress (mem_of_getElem? hi)
    exact hs.complete hd hopen rfl rfl rfl published_nil completions_nil (by simp) rfl hb ho
  | settle p d result hheads =>
    obtain ⟨hd, hopen⟩ := (hs.books p).open_head hheads
    have hone : [.consumed p d.toSubmission, .completed p d.toSubmission result (x.tracked p d.toSubmission result)] =
        [.consumed p d.toSubmission] ++ [Note.completed p d.toSubmission result (x.tracked p d.toSubmission result)] := rfl
    exact hs.complete hd hopen rfl rfl rfl rfl rfl (by simp [Note.peer]) hone hb ho

theorem sound_init {board : CompletionScoreboard} {groups : Nat → ReleaseGroup}
    (h : CompletionScoreboard.init (c.queueSize * 2) Rma.generation 1 = .ok board) :
    Sound c ⟨fun _ => Peer.init, ⟨fun _ => board, groups⟩, 0, 0⟩ [] := by
  refine ⟨fun _ => book_init, fun _ => origin_init, fun _ => tracked_init h, fun _ => ?_, fun _ _ _ _ hd => ?_,
    fun _ _ _ hd => absurd hd not_mem_nil, fun _ e _ he => ?_, fun g hg => absurd hg (Nat.not_lt_zero g)⟩
  · have hrec := recorded_init h
    refine ⟨?_, hrec.head⟩
    unfold CompletionScoreboard.init at h
    split_ifs at h
    cases h
    rfl
  · exact absurd hd not_mem_nil
  · cases he

end Moves

/-- **The scoreboards and the release groups agree with the log in every run.** -/
theorem Reachable.sound {ok : Run n → Action n → Prop} {r : Run n} (h : Reachable c ok r) : Sound c r.proxy.toCore r.log :=
  h.keeps (I := Sound c) (fun _ _ hboard => sound_init hboard) fun _ _ _ _ _ hs hmove _ => hmove.sound hs

/-! ## The watermark -/

section Watermark
variable {x y : Core n} {a : Action n} {log ns : List (Note n)} {p q : Fin n} {d : Submission} {r : Run n}

theorem setPeer_doneSeq_le (h : (x.peers p).doneSeq ≤ peer.doneSeq) :
    (x.peers q).doneSeq ≤ ((x.setPeer p peer).peers q).doneSeq := by
  rw [Core.setPeer_peers]
  split_ifs with hq
  · rw [hq]
    exact h
  · exact UInt64.le_refl _

theorem complete_doneSeq_le (h : peer.doneSeq = (x.peers p).doneSeq) (result : Result) :
    (x.peers q).doneSeq ≤ (((x.setPeer p peer).complete p d result).peers q).doneSeq := by
  have hset : (x.peers q).doneSeq ≤ ((x.setPeer p peer).peers q).doneSeq :=
    setPeer_doneSeq_le (by rw [h]; exact UInt64.le_refl _)
  refine UInt64.le_trans hset ?_
  unfold Core.complete
  dsimp only
  rw [update_apply]
  by_cases hq : q = p
  · rw [if_pos hq, hq]
    split_ifs with hlt
    · exact UInt64.le_of_lt hlt.2
    · exact UInt64.le_refl _
  · rw [if_neg hq]
    exact UInt64.le_refl _

theorem Move.doneSeq_le (h : Move c x a y ns) : (x.peers q).doneSeq ≤ (y.peers q).doneSeq := by
  cases h with
  | deliver => exact UInt64.le_refl _
  | retire | settle =>
    refine complete_doneSeq_le ?_ _
    rfl
  | _ => exact setPeer_doneSeq_le (UInt64.le_refl _)

theorem step_doneSeq_le {r' : Run n} (h : step c r a = some r') (q : Fin n) :
    (r.proxy.peers q).doneSeq ≤ (r'.proxy.peers q).doneSeq := by
  obtain ⟨out, hact, rfl⟩ := map_eq_some_iff.1 h
  have hmoves := act_moves hact
  generalize out.1.toCore = y at hmoves
  generalize out.2 = ns at hmoves
  generalize r.proxy.toCore = x at hmoves
  induction hmoves with
  | nil => exact UInt64.le_refl _
  | one hmove => exact hmove.doneSeq_le
  | cons _ hmove _ ih => exact UInt64.le_trans hmove.doneSeq_le ih

theorem Sound.retired (h : Sound c x log) (hd : d ∈ published (view p log))
    (hle : d.opSeq.toNat ≤ (x.peers p).doneSeq.toNat) :
    ∃ result tracked, .completed p d result tracked ∈ log ∧ result ≠ .inProgress := by
  obtain ⟨i, hi⟩ := getElem?_of_mem hd
  have hseq := ((h.books p).numbered i d hi).2.1
  have hnext := (h.posted p).next
  obtain ⟨result, tracked, hm, hne⟩ := (h.boards p).retired d hd (by rw [hseq, hnext]; omega)
  exact ⟨result, tracked, mem_completions.1 hm, hne⟩

theorem Sound.published_before (h : Sound c x log) (h' : Sound c y (log ++ ns))
    (hd : d ∈ published (view p (log ++ ns))) (hle : d.opSeq.toNat ≤ (x.peers p).doneSeq.toNat) :
    d ∈ published (view p log) := by
  obtain ⟨i, hi⟩ := getElem?_of_mem hd
  have hnum := ((h'.books p).numbered i d hi).1
  have hnext := (h.posted p).next
  have hlen := (h.boards p).next.2
  rw [view_append, published_append, getElem?_append_left (by omega)] at hi
  exact mem_of_getElem? hi

theorem Sound.completed_before (h : Sound c x log) (h' : Sound c y (log ++ ns)) {tracked : Result}
    (hd : .completed p d result tracked ∈ log ++ ns) (hle : d.opSeq.toNat ≤ (x.peers p).doneSeq.toNat) :
    .completed p d result tracked ∈ log := by
  have hin := mem_completions.2 hd
  have hpub := h.published_before h' ((h'.books p).completed_published hin) hle
  obtain ⟨result', tracked', hm, -⟩ := h.retired hpub hle
  have hone := (h'.books p).completed_once hin (mem_completions.2 (mem_append_left ns hm)) rfl
  cases hone
  exact hm

end Watermark

end FlagCX.Rma
