import FlagCX.Rma.Books

/-!
# Where published descriptors come from

A producer holds the lock with what an entry point enqueues, so every published descriptor has one of the forms of
`flagcx_hetero.cc`. `Submission.Genuine` are the facts about these forms that the proofs need, and `Origin` is the
invariant of runs that they follow from.
-/

namespace FlagCX.Rma
open List Option

variable {n : Nat} {c : Config n}

/-- The descriptor has the form that an entry point gives it. -/
structure Submission.Genuine (d : Submission) : Prop where
  event : d.streamEvent = true → d.type = .get ∨ d.type = .ipcGet
  release : d.isRelease = true ↔ d.type = .release
  data : d.isData = true ↔ d.type ≠ .release
  group : d.type = .release → d.releaseGroup ≠ none
  member : d.releaseGroup ≠ none → d.type = .put ∨ d.type = .release

theorem isData_independence (b : Bool) : ((submitData ||| independence b) &&& submitData != 0) = true ∧
    ((submitData ||| independence b) &&& submitRelease != 0) = false ∧
    ((submitRelease ||| independence b) &&& submitData != 0) = false ∧
    ((submitRelease ||| independence b) &&& submitRelease != 0) = true := by
  cases b <;> decide

theorem genuine_put (x : Extent) (key : UInt64) (b : Bool) : (putDesc x key b).Genuine := by
  obtain ⟨h1, h2, -⟩ := isData_independence b
  refine ⟨nofun, ?_, ?_, nofun, fun h => absurd rfl h⟩
  · exact iff_of_false (ne_true_of_eq_false h2) nofun
  · exact iff_of_true h1 nofun

theorem genuine_signalData (g : Nat) (gid : UInt64) (x : Extent) (key : UInt64) (b : Bool) :
    (signalDataDesc g gid x key b).Genuine := by
  obtain ⟨h1, h2, -⟩ := isData_independence b
  refine ⟨nofun, ?_, ?_, nofun, fun _ => .inl rfl⟩
  · exact iff_of_false (ne_true_of_eq_false h2) nofun
  · exact iff_of_true h1 nofun

theorem genuine_signalRelease (g : Nat) (gid off value key : UInt64) (b : Bool) :
    (signalReleaseDesc g gid off value key b).Genuine := by
  obtain ⟨-, -, h3, h4⟩ := isData_independence b
  refine ⟨nofun, ?_, ?_, nofun, fun _ => .inr rfl⟩
  · exact iff_of_true h4 rfl
  · exact iff_of_false (ne_true_of_eq_false h3) fun h => h rfl

theorem genuine_get (x : Extent) (key : UInt64) (b event : Bool) : (getDesc x key b event).Genuine := by
  obtain ⟨h1, h2, -⟩ := isData_independence b
  refine ⟨fun _ => .inl rfl, ?_, ?_, nofun, fun h => absurd rfl h⟩
  · exact iff_of_false (ne_true_of_eq_false h2) nofun
  · exact iff_of_true h1 nofun

theorem genuine_plain {d : Submission} (hflags : d.submitFlags = submitData) (ht : d.type ≠ .release)
    (hg : d.releaseGroup = none) (hev : d.streamEvent = true → d.type = .get ∨ d.type = .ipcGet) : d.Genuine := by
  refine ⟨hev, ?_, ?_, fun h => absurd h ht, fun h => absurd hg h⟩
  · rw [Submission.isRelease, hflags]
    exact iff_of_false (by decide) ht
  · rw [Submission.isData, hflags]
    exact iff_of_true (by decide) ht

theorem ApiCall.genuine (call : ApiCall) (group : Nat) (groupId : UInt64) :
    ∀ d ∈ (call.enqueue group groupId).descs, d.Genuine := by
  intro d hd
  cases call with
  | put x ready key independent =>
    rw [mem_singleton.1 hd]
    exact genuine_put ..
  | batchPut xs =>
    obtain ⟨x, -, rfl⟩ := mem_map.1 hd
    exact genuine_plain rfl nofun rfl nofun
  | putSignal x off value ready key independent =>
    rcases mem_append.1 hd with hm | hm
    · split_ifs at hm
      · rw [mem_singleton.1 hm]
        exact genuine_signalData ..
      · exact absurd hm not_mem_nil
    · rw [mem_singleton.1 hm]
      exact genuine_signalRelease ..
  | batchPutSignal xs off value key independent =>
    rcases mem_append.1 hd with hm | hm
    · obtain ⟨x, -, rfl⟩ := mem_map.1 hm
      exact genuine_signalData ..
    · rw [mem_singleton.1 hm]
      exact genuine_signalRelease ..
  | get x key independent event =>
    rw [mem_singleton.1 hd]
    exact genuine_get ..
  | getIpc =>
    rw [mem_singleton.1 hd]
    exact genuine_plain rfl nofun rfl fun _ => .inr rfl
  | putValue value off idx =>
    rw [mem_singleton.1 hd]
    exact genuine_plain rfl nofun rfl nofun

theorem ApiCall.signals_event (call : ApiCall) (group : Nat) (groupId : UInt64)
    (h : (call.enqueue group groupId).signals = true) : ∀ d ∈ (call.enqueue group groupId).descs, d.streamEvent = false := by
  intro d hd
  cases call with
  | put x ready key independent =>
    rw [mem_singleton.1 hd]
    rfl
  | putSignal x off value ready key independent =>
    rcases mem_append.1 hd with hm | hm
    · split_ifs at hm
      · rw [mem_singleton.1 hm]
        rfl
      · exact absurd hm not_mem_nil
    · rw [mem_singleton.1 hm]
      rfl
  | get x key independent event =>
    cases event with
    | false => exact absurd h nofun
    | true => exact absurd h nofun
  | batchPut xs => exact absurd h nofun
  | batchPutSignal xs off value key independent => exact absurd h nofun
  | getIpc => exact absurd h nofun
  | putValue value off idx => exact absurd h nofun

theorem genuine_prepared {q : UInt64} {d : Desc} (h : d.Genuine) : (prepared q d).Genuine :=
  ⟨h.event, h.release, h.data, h.group, h.member⟩

/-- The lock is held for the call of an entry point, and what is published is what such calls enqueue. -/
structure Origin (c : Config n) (peer : Peer) (l : List (Note n)) : Prop where
  lock : ∀ e, peer.lock = .admitted e → ∃ call g gid, e = ApiCall.enqueue g gid call ∧ call.valid c = true
  genuine : ∀ d ∈ published l, d.Genuine

section Run
variable {x y : Core n} {a : Action n} {log ns : List (Note n)}

theorem Move.origin (h : Move c x a y ns) (ho : ∀ p, Origin c (x.peers p) (view p log)) (q : Fin n) :
    Origin c (y.peers q) (view q (log ++ ns)) := by
  refine ⟨fun e he => ?_, fun d hd => ?_⟩
  · rcases h.lock_cases he with hl | ⟨call, gid, -, -, rfl, hvalid⟩
    · exact (ho q).lock e hl
    · exact ⟨call, x.groupCount, gid, rfl, hvalid⟩
  · rw [view_append, published_append, mem_append] at hd
    rcases hd with hd | hd
    · exact (ho q).genuine d hd
    · rcases h.published_cases with ⟨p, e, f, -, hl, -, rfl⟩ | hnone
      · obtain ⟨call, g, gid, rfl, -⟩ := (ho p).lock e hl
        obtain ⟨awaits, hmem⟩ := mem_published.1 hd
        obtain ⟨d', hd', heq⟩ := mem_map.1 hmem
        cases heq
        obtain ⟨i, hi⟩ := getElem?_of_mem hd'
        rw [number_getElem?, map_eq_some_iff] at hi
        obtain ⟨e, he, rfl⟩ := hi
        exact genuine_prepared (call.genuine g gid e (mem_of_getElem? he))
      · rw [published_view hnone] at hd
        exact absurd hd not_mem_nil

theorem origin_init : Origin c Peer.init ([] : List (Note n)) := by
  refine ⟨fun e he => ?_, fun d hd => absurd hd not_mem_nil⟩
  cases he

/-- **Every published descriptor has the form of an entry point.** -/
theorem Reachable.origin {ok : Run n → Action n → Prop} {r : Run n} (h : Reachable c ok r) (p : Fin n) :
    Origin c (r.proxy.peers p) (view p r.log) :=
  h.keeps (I := fun x log => ∀ p, Origin c (x.peers p) (view p log)) (fun _ _ _ _ => origin_init)
    (fun _ _ _ _ _ ho hmove _ => hmove.origin ho) p

end Run

end FlagCX.Rma
