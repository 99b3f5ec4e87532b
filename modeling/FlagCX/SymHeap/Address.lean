import FlagCX.SymHeap.Arena

/-!
# The addresses of symmetric windows (`sym_heap.cc`, `default_comm_traits.h`)

* `peerPtr`, `getSegmentedPointer` : the address formulas of the host and of the device.
* `Window`           : a window with layouts that were accepted; it is live when its span is owned.
* `Exact`, `arena_exact` : the free ranges after any calls, and the addresses of the live windows.

An empty access at the end of the user part is accepted; its address may be the first one of the next window. The device
formula refuses that offset.
-/

namespace FlagCX.SymHeap
open Lib Ranges List

structure SegmentMeta where
  offset : Nat
  size : Nat
  deriving DecidableEq, Repr

structure RankLayout where
  mappedSize : Nat
  userOffset : Nat
  userSize : Nat
  firstSegment : Int
  segmentCount : Int
  deriving DecidableEq, Repr

/-! ## `flagcxSymValidateLayouts` -/

/-- The loop over the segments of a rank: the end of the last one, and how far they cover the user part. -/
def segmentLoop (mappedSize : Nat) (first : Bool) (previousEnd coveredTo : Nat) : List SegmentMeta → Option (Nat × Nat)
  | [] => some (previousEnd, coveredTo)
  | segment :: rest =>
    if segment.size = 0 ∨ segment.offset > mappedSize ∨ segment.size > mappedSize - segment.offset ∨
        (first = false ∧ segment.offset < previousEnd) then none
    else
      let last := segment.offset + segment.size
      segmentLoop mappedSize false last (if segment.offset ≤ coveredTo ∧ last > coveredTo then last else coveredTo) rest

/-- The loop over the ranks: the number of segments, and the largest mapping. -/
def rankLoop (segments : List SegmentMeta) (expectedFirst : Int) (maxMappedSize : Nat) : List RankLayout → Option (Int × Nat)
  | [] => some (expectedFirst, maxMappedSize)
  | layout :: rest =>
    if layout.firstSegment ≠ expectedFirst ∨ layout.segmentCount ≤ 0 ∨ layout.segmentCount > segments.length - expectedFirst ∨
        layout.userSize = 0 ∨ layout.userOffset > layout.mappedSize ∨ layout.userSize > layout.mappedSize - layout.userOffset then none
    else
      match segmentLoop layout.mappedSize true 0 layout.userOffset
        ((segments.drop layout.firstSegment.toNat).take layout.segmentCount.toNat) with
      | none => none
      | some (previousEnd, coveredTo) =>
        if previousEnd ≠ layout.mappedSize ∨ coveredTo < layout.userOffset + layout.userSize then none
        else rankLoop segments (expectedFirst + layout.segmentCount) (max maxMappedSize layout.mappedSize) rest

/-- `flagcxSymValidateLayouts`, with the slot stride. -/
def validateLayouts (layouts : List RankLayout) (segments : List SegmentMeta) (slotAlignment : Nat) : Except Result Nat :=
  if layouts.length = 0 ∨ segments.length = 0 ∨ slotAlignment = 0 then .error .invalidArgument
  else match rankLoop segments 0 0 layouts with
    | none => .error .invalidArgument
    | some (expectedFirst, maxMappedSize) =>
      if expectedFirst ≠ segments.length ∨ maxMappedSize > sizeMax - (slotAlignment - 1) then .error .invalidArgument
      else
        let stride := alignUp maxMappedSize slotAlignment
        if stride = 0 ∨ stride > sizeMax / layouts.length then .error .invalidArgument else .ok stride

/-! ## The two address formulas -/

/-- `flagcxSymLsaPeerPtr`. -/
def peerPtr (arenaBase : UInt64) (rankStride windowOffset : Nat) (localRanks peerLocalRank : Int) (layout : RankLayout) (offset size : Nat) :
    Except Result Nat :=
  if arenaBase.toNat = 0 ∨ rankStride = 0 ∨ localRanks ≤ 0 ∨ peerLocalRank < 0 ∨ peerLocalRank ≥ localRanks ∨
      rankStride > sizeMax / localRanks.toNat ∨ windowOffset > rankStride ∨ layout.mappedSize > rankStride - windowOffset ∨
      layout.userOffset > layout.mappedSize ∨ layout.userSize > layout.mappedSize - layout.userOffset ∨
      offset > layout.userSize ∨ size > layout.userSize - offset then .error .invalidArgument
  else
    let displacement := (peerLocalRank.toNat * rankStride + windowOffset + layout.userOffset + offset) % 2 ^ 64
    if displacement > sizeMax - arenaBase.toNat then .error .invalidArgument else .ok (arenaBase.toNat + displacement)

def getSegmentedPointer (flatBasePtr allocSize : Nat) (symPeerLayouts : List RankLayout) (intraSize : Int) (offset : Nat)
    (index : Int) : Option Nat :=
  if index < 0 ∨ index ≥ intraSize then none
  else match symPeerLayouts[index.toNat]? with
    | none => none
    | some layout =>
      if offset ≥ layout.userSize then none
      else some ((flatBasePtr + index.toNat * allocSize + layout.userOffset + offset) % 2 ^ 64)

/-- A window of the arena: its offset, its span, and the layouts of its local ranks, which gave the span. -/
structure Window (localRanks : Nat) where
  offset : Nat
  span : Nat
  layouts : List RankLayout
  ranks : layouts.length = localRanks
  accepted : ∃ segments slotAlignment, validateLayouts layouts segments slotAlignment = .ok span

def Window.Live {localRanks : Nat} (w : Window localRanks) (h : Heap) : Prop := (w.offset, w.span) ∈ h.owned

def Window.layout {localRanks : Nat} (w : Window localRanks) (peer : Fin localRanks) : RankLayout :=
  w.layouts.get (peer.cast w.ranks.symm)

section Layouts
variable {segments : List SegmentMeta} {layouts : List RankLayout} {slotAlignment stride : Nat}

/-- The user part of a layout lies in its mapping, and the mapping in the stride. -/
structure RankLayout.Within (layout : RankLayout) (stride : Nat) : Prop where
  user : 0 < layout.userSize
  mapped : layout.userOffset + layout.userSize ≤ layout.mappedSize
  slot : layout.mappedSize ≤ stride

theorem rankLoop_spec {expectedFirst first : Int} {mapped mapped' : Nat}
    (h : rankLoop segments expectedFirst mapped layouts = some (first, mapped')) :
    mapped ≤ mapped' ∧ ∀ layout ∈ layouts, layout.Within mapped' := by
  induction layouts generalizing expectedFirst mapped with
  | nil =>
    simp only [rankLoop, Option.some.injEq, Prod.mk.injEq] at h
    exact ⟨h.2.le, fun _ hl => nomatch hl⟩
  | cons layout rest ih =>
    rw [rankLoop] at h
    split at h
    · cases h
    split at h
    · cases h
    split at h
    · cases h
    obtain ⟨hle, hrest⟩ := ih h
    refine ⟨(le_max_left ..).trans hle, forall_mem_cons.2 ⟨⟨by omega, by omega, (le_max_right ..).trans hle⟩, hrest⟩⟩

theorem validateLayouts_spec (h : validateLayouts layouts segments slotAlignment = .ok stride) :
    ∀ layout ∈ layouts, layout.Within stride := by
  rw [validateLayouts] at h
  split at h
  · cases h
  split at h
  · cases h
  rename_i first mapped hloop
  split at h
  · cases h
  simp only at h
  split at h
  · cases h
  obtain rfl := Except.ok.inj h
  intro layout hl
  obtain ⟨huser, hmapped, hslot⟩ := (rankLoop_spec hloop).2 layout hl
  exact ⟨huser, hmapped, hslot.trans (le_alignUp (by omega))⟩

theorem Window.within {localRanks : Nat} (w : Window localRanks) (peer : Fin localRanks) : (w.layout peer).Within w.span := by
  obtain ⟨segments, slotAlignment, h⟩ := w.accepted
  exact validateLayouts_spec h _ (get_mem ..)

end Layouts

/-! ## The addresses of live windows -/

section Live
variable {h : Heap} {arenaBase : UInt64} {localRanks offset size addr : Nat} {w w' : Window localRanks} {peer peer' : Fin localRanks}

/-- Where an offset of a window lies from the base of the arena on, for a local rank. -/
def Window.displacement (w : Window localRanks) (rankStride : Nat) (peer : Fin localRanks) (offset : Nat) : Nat :=
  peer * rankStride + w.offset + (w.layout peer).userOffset + offset

/-- `flagcxSymLsaPeerPtr` for an access through a window. -/
def Window.ptr (w : Window localRanks) (arena : Arena) (arenaBase : UInt64) (peer : Fin localRanks) (offset size : Nat) : Except Result Nat :=
  peerPtr arenaBase arena.rankStride w.offset localRanks (peer : Nat) (w.layout peer) offset size

theorem peerPtr_eq_ok (hs : Sound h) (hw : w.Live h) : w.ptr h.arena arenaBase peer offset size = .ok addr ↔
    (0 < arenaBase.toNat ∧ h.arena.rankStride ≤ sizeMax / localRanks ∧ offset + size ≤ (w.layout peer).userSize ∧
      arenaBase.toNat + w.displacement h.arena.rankStride peer offset ≤ sizeMax) ∧
    addr = arenaBase.toNat + w.displacement h.arena.rankStride peer offset := by
  obtain ⟨hspan, hend⟩ := hs.owned_inside _ hw
  obtain ⟨huser, hmapped, hslot⟩ := w.within peer
  have hpeer := peer.isLt
  have hbase := arenaBase.toNat_lt
  have hsizeMax : sizeMax = 2 ^ 64 - 1 := rfl
  rw [Window.ptr, peerPtr, Int.toNat_natCast, Int.toNat_natCast]
  by_cases hargs : 0 < arenaBase.toNat ∧ h.arena.rankStride ≤ sizeMax / localRanks ∧ offset + size ≤ (w.layout peer).userSize
  · obtain ⟨hnull, hstride, hsize⟩ := hargs
    have hall : (peer + 1) * h.arena.rankStride ≤ sizeMax := by
      rw [Nat.mul_comm]
      exact (Nat.mul_le_mul_left _ hpeer).trans ((Nat.le_div_iff_mul_le (by omega)).1 hstride)
    have hwrap : w.displacement h.arena.rankStride peer offset < 2 ^ 64 := by
      rw [Nat.succ_mul] at hall
      rw [Window.displacement]
      omega
    have hmod : (peer * h.arena.rankStride + w.offset + (w.layout peer).userOffset + offset) % 2 ^ 64 =
        w.displacement h.arena.rankStride peer offset := Nat.mod_eq_of_lt hwrap
    rw [if_neg (by omega)]
    simp only [hmod]
    split
    · refine iff_of_false (by simp) fun hok => ?_
      omega
    · rw [Except.ok.injEq, eq_comm]
      have hmax : arenaBase.toNat + w.displacement h.arena.rankStride peer offset ≤ sizeMax := by omega
      exact (and_iff_right ⟨hnull, hstride, hsize, hmax⟩).symm
  · rw [if_pos (by omega)]
    exact iff_of_false (by simp) fun hok => hargs ⟨hok.1.1, hok.1.2.1, hok.1.2.2.1⟩

theorem displacement_within (rankStride : Nat) (hsize : offset + size ≤ (w.layout peer).userSize) :
    peer * rankStride + w.offset ≤ w.displacement rankStride peer offset ∧
      w.displacement rankStride peer offset + size ≤ peer * rankStride + w.offset + w.span := by
  obtain ⟨-, hmapped, hslot⟩ := w.within peer
  rw [Window.displacement]
  omega

theorem displacement_inj (hs : Sound h) (hw : w.Live h) (hw' : w'.Live h) {offset' : Nat} (ho : offset < (w.layout peer).userSize)
    (ho' : offset' < (w'.layout peer').userSize)
    (heq : w.displacement h.arena.rankStride peer offset = w'.displacement h.arena.rankStride peer' offset') :
    (w.offset, w.span) = (w'.offset, w'.span) ∧ peer = peer' ∧ (w = w' → offset = offset') := by
  have hin := displacement_within (w := w) h.arena.rankStride (show offset + 1 ≤ _ from ho)
  have hin' := displacement_within (w := w') h.arena.rankStride (show offset' + 1 ≤ _ from ho')
  obtain ⟨-, hend⟩ := hs.owned_inside _ hw
  obtain ⟨-, hend'⟩ := hs.owned_inside _ hw'
  have hpeer : peer = peer' := by
    refine Fin.ext (le_antisymm (Nat.lt_succ_iff.1 ?_) (Nat.lt_succ_iff.1 ?_))
    · refine Nat.lt_of_mul_lt_mul_right (a := h.arena.rankStride) ?_
      rw [Nat.succ_mul]
      omega
    · refine Nat.lt_of_mul_lt_mul_right (a := h.arena.rankStride) ?_
      rw [Nat.succ_mul]
      omega
  subst hpeer
  refine ⟨?_, rfl, ?_⟩
  · by_contra hne
    have : Std.Symm Disjoint := ⟨fun _ _ hdis => hdis.symm⟩
    have hdis : Disjoint (w.offset, w.span) (w'.offset, w'.span) := hs.owned_disjoint.forall hw hw' hne
    simp only [Disjoint] at hdis
    omega
  · rintro rfl
    simpa only [Window.displacement, Nat.add_left_cancel_iff] using heq

theorem getSegmentedPointer_eq {rankStride : Nat} (ho : offset < (w.layout peer).userSize)
    (hmax : arenaBase.toNat + w.displacement rankStride peer offset ≤ sizeMax) :
    getSegmentedPointer (arenaBase.toNat + w.offset) rankStride w.layouts localRanks offset (peer : Nat) =
      some (arenaBase.toNat + w.displacement rankStride peer offset) := by
  have hget : w.layouts[(peer : Nat)]? = some (w.layout peer) := getElem?_eq_getElem _
  have hlt : sizeMax < 2 ^ 64 := by decide
  have hsum : arenaBase.toNat + w.offset + peer * rankStride + (w.layout peer).userOffset + offset =
      arenaBase.toNat + w.displacement rankStride peer offset := by
    rw [Window.displacement]
    omega
  rw [getSegmentedPointer, if_neg (by omega), Int.toNat_natCast, hget]
  simp only
  rw [if_neg (by omega), hsum, Nat.mod_eq_of_lt (by omega)]

end Live

/-! ## The allocator and the addresses -/

/-- The free ranges are exact, calls that fail change nothing, and the lowest aligned free span is found. -/
structure Exact (h : Heap) : Prop where
  sound : Sound h
  failed : ∀ call, (step h call).1 ≠ .success → (step h call).2 = h
  released : ∀ s ∈ h.owned, (releaseOffset h.arena s.1 s.2 false).1 = .success
  lowest : ∀ span alignment, 0 < span → 0 < alignment → (∀ r ∈ h.arena.freeRanges, r.1 + (alignment - 1) ≤ sizeMax) →
    ((∃ offset, findOffset h.arena span alignment = .ok offset) ↔ ∃ offset, Fits h.arena span alignment offset) ∧
    ∀ offset, findOffset h.arena span alignment = .ok offset ↔ IsLeast {x | Fits h.arena span alignment x} offset

/-- The address returned for an offset of the user part: inside the window's part of the peer's slot, the one of the device,
and of no other offset, peer or live window. -/
def Addressed (h : Heap) (localRanks : Nat) (arenaBase : UInt64) : Prop :=
  ∀ (w : Window localRanks) (peer : Fin localRanks) (offset size ptr : Nat), w.Live h → offset < (w.layout peer).userSize →
    w.ptr h.arena arenaBase peer offset size = .ok ptr →
    (ptr ≤ sizeMax ∧ arenaBase.toNat + peer * h.arena.rankStride + w.offset ≤ ptr ∧
      ptr + size ≤ arenaBase.toNat + peer * h.arena.rankStride + w.offset + w.span) ∧
    getSegmentedPointer (arenaBase.toNat + w.offset) h.arena.rankStride w.layouts localRanks offset (peer : Nat) = some ptr ∧
    ∀ (w' : Window localRanks) (peer' : Fin localRanks) (offset' size' : Nat), w'.Live h → offset' < (w'.layout peer').userSize →
      w'.ptr h.arena arenaBase peer' offset' size' = .ok ptr →
      (w.offset, w.span) = (w'.offset, w'.span) ∧ peer = peer' ∧ (w = w' → offset = offset')

theorem Sound.exact {h : Heap} (hs : Sound h) : Exact h where
  sound := hs
  failed _ := step_failed hs
  released s hmem := by
    obtain ⟨hpos, hend⟩ := hs.owned_inside s hmem
    refine releaseOffset_eq_success hs.separated hpos hend fun b hb hfree => ?_
    exact (hs.complement b (by omega)).1 hfree ⟨s, hmem, hb⟩
  lowest span alignment hspan hal hfit := by
    have hfind : ∀ offset, findOffset h.arena span alignment = .ok offset ↔ IsLeast {x | Fits h.arena span alignment x} offset :=
      fun offset => findOffset_eq_ok hspan hal hs.separated hs.inside fun r hr => by
        have := hfit r hr
        omega
    refine ⟨⟨fun ⟨offset, hok⟩ => ⟨offset, ((hfind offset).1 hok).1⟩, fun hex => ?_⟩, hfind⟩
    classical
    exact ⟨Nat.find hex, (hfind _).2 ⟨Nat.find_spec hex, fun _ hx => Nat.find_min' hex hx⟩⟩

theorem Sound.addressed {h : Heap} (hs : Sound h) (localRanks : Nat) (arenaBase : UInt64) : Addressed h localRanks arenaBase := by
  intro w peer offset size ptr hw ho hok
  obtain ⟨⟨hbase, -, hsize, hmax⟩, rfl⟩ := (peerPtr_eq_ok hs hw).1 hok
  have hin := displacement_within (w := w) h.arena.rankStride hsize
  refine ⟨⟨hmax, by omega, by omega⟩, getSegmentedPointer_eq ho hmax, fun w' peer' offset' size' hw' ho' hok' => ?_⟩
  obtain ⟨-, heq⟩ := (peerPtr_eq_ok hs hw').1 hok'
  exact displacement_inj hs hw hw' ho ho' (by omega)

/-- After any allocations and releases, on ranks that end up with the same addresses owned too. -/
theorem arena_exact (rankStride : Nat) (hpos : 0 < rankStride) (calls : List Call) :
    Exact (run (fresh rankStride) calls) ∧
    (∀ calls', (∀ b, Covers (run (fresh rankStride) calls').owned b ↔ Covers (run (fresh rankStride) calls).owned b) →
      (run (fresh rankStride) calls').arena.freeRanges = (run (fresh rankStride) calls).arena.freeRanges) ∧
    ∀ localRanks arenaBase, Addressed (run (fresh rankStride) calls) localRanks arenaBase := by
  have hs := fresh_sound hpos
  have hrun := run_sound hs calls
  refine ⟨hrun.exact, fun calls' howned => ?_, hrun.addressed⟩
  exact freeRanges_eq (run_sound hs calls') hrun ((run_rankStride hs calls').trans (run_rankStride hs calls).symm) howned

/-- An allocation, one that finds no room, and the release of the first. -/
theorem arena_exact_sixteen :
    Exact (run (fresh 16) [.allocate 8 8 false, .allocate 16 8 false, .release 0 8 false]) ∧
    (∀ calls', (∀ b, Covers (run (fresh 16) calls').owned b ↔
        Covers (run (fresh 16) [.allocate 8 8 false, .allocate 16 8 false, .release 0 8 false]).owned b) →
      (run (fresh 16) calls').arena.freeRanges =
        (run (fresh 16) [.allocate 8 8 false, .allocate 16 8 false, .release 0 8 false]).arena.freeRanges) ∧
    ∀ localRanks arenaBase,
      Addressed (run (fresh 16) [.allocate 8 8 false, .allocate 16 8 false, .release 0 8 false]) localRanks arenaBase :=
  arena_exact 16 (by decide) _

/-- A window of one rank that uses all of its eight addresses. -/
def wholeWindow (offset : Nat) : Window 1 := ⟨offset, 8, [⟨8, 0, 8, 0, 1⟩], rfl, [⟨0, 8⟩], 8, rfl⟩

instance {localRanks : Nat} (w : Window localRanks) (h : Heap) : Decidable (w.Live h) :=
  inferInstanceAs (Decidable ((w.offset, w.span) ∈ h.owned))

/-- The end of one window is the start of the next. -/
theorem ends_meet : ¬ ∀ (w w' : Window 1) (offset size addr offset' size' : Nat),
    w.Live (run (fresh 16) [.allocate 8 8 false, .allocate 8 8 false]) →
    w'.Live (run (fresh 16) [.allocate 8 8 false, .allocate 8 8 false]) → w.offset ≠ w'.offset →
    w.ptr (run (fresh 16) [.allocate 8 8 false, .allocate 8 8 false]).arena 4096 0 offset size = .ok addr →
    w'.ptr (run (fresh 16) [.allocate 8 8 false, .allocate 8 8 false]).arena 4096 0 offset' size' ≠ .ok addr := by
  intro h
  exact h (wholeWindow 0) (wholeWindow 8) 8 0 4104 0 1 (by decide) (by decide) (by decide) rfl rfl

end FlagCX.SymHeap
