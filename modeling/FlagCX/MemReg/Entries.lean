import FlagCX.MemReg.Registry

/-!
# The arrays of the registry in order

* `MrEntry.WF`  : one entry; its bits are set for the extensions it has.
* `Arranged`    : the entries, by their base addresses and without overlap; `Arranged.set`, `.erase`, `.insert`.
* `Indexed`     : the index, by its ids, holds the P2P extensions of the entries; `Indexed.append`, `.remove`.
-/

namespace FlagCX.MemReg
open Lib Function List Option

/-! ## One entry -/

namespace MrEntry
variable (entry : MrEntry) (owner : Owner) (mhandle : Nat) (ext : Ext owner)

@[simp] theorem own_baseAddr : (entry.own owner mhandle).baseAddr = entry.baseAddr := rfl
@[simp] theorem disown_exts : (entry.disown owner).exts = update entry.exts owner none := rfl
@[simp] theorem extend_exts : (entry.extend owner ext).exts = update entry.exts owner (some ext) := rfl

end MrEntry

def bits (p2p coll rma : Bool) : UInt32 :=
  (if p2p then Owner.bit .p2p else 0) ||| (if coll then Owner.bit .coll else 0) ||| if rma then Owner.bit .rma else 0

def maskOf (exts : Exts) : UInt32 := bits (exts .p2p).isSome (exts .coll).isSome (exts .rma).isSome

def MrEntry.Contains (entry : MrEntry) (addr : Nat) : Prop := entry.baseAddr ≤ addr ∧ addr < entry.baseAddr + entry.size

/-- A region that does not wrap, with the bits of its extensions, and with an owner. -/
structure MrEntry.WF (entry : MrEntry) : Prop where
  base : 0 < entry.baseAddr
  size : 0 < entry.size
  fits : entry.baseAddr + entry.size < 2 ^ 64
  mask : entry.ownerMask = maskOf entry.exts
  owned : ∃ owner, (entry.exts owner).isSome

section Mask

theorem bits_and : ∀ p c r : Bool, (bits p c r &&& Owner.p2p.bit ≠ 0 ↔ p) ∧ (bits p c r &&& Owner.coll.bit ≠ 0 ↔ c) ∧
    (bits p c r &&& Owner.rma.bit ≠ 0 ↔ r) := by decide

theorem bits_or : ∀ p c r : Bool, bits p c r ||| Owner.p2p.bit = bits true c r ∧
    bits p c r ||| Owner.coll.bit = bits p true r ∧ bits p c r ||| Owner.rma.bit = bits p c true := by decide

theorem bits_andNot : ∀ p c r : Bool, bits p c r &&& ~~~Owner.p2p.bit = bits false c r ∧
    bits p c r &&& ~~~Owner.coll.bit = bits p false r ∧ bits p c r &&& ~~~Owner.rma.bit = bits p c false := by decide

variable {exts : Exts} {owner : Owner}

theorem maskOf_and_bit : maskOf exts &&& owner.bit ≠ 0 ↔ (exts owner).isSome := by
  have h := bits_and (exts .p2p).isSome (exts .coll).isSome (exts .rma).isSome
  cases owner with
  | p2p => exact h.1
  | coll => exact h.2.1
  | rma => exact h.2.2

theorem maskOf_update_some (ext : Ext owner) : maskOf (update exts owner (some ext)) = maskOf exts ||| owner.bit := by
  have h := bits_or (exts .p2p).isSome (exts .coll).isSome (exts .rma).isSome
  cases owner with
  | p2p => exact h.1.symm
  | coll => exact h.2.1.symm
  | rma => exact h.2.2.symm

theorem maskOf_update_none : maskOf (update exts owner none) = maskOf exts &&& ~~~owner.bit := by
  have h := bits_andNot (exts .p2p).isSome (exts .coll).isSome (exts .rma).isSome
  cases owner with
  | p2p => exact h.1.symm
  | coll => exact h.2.1.symm
  | rma => exact h.2.2.symm

theorem maskOf_or_bit (h : (exts owner).isSome) : maskOf exts ||| owner.bit = maskOf exts := by
  obtain ⟨ext, hext⟩ := isSome_iff_exists.1 h
  rw [← maskOf_update_some ext, ← hext, update_eq_self]

theorem maskOf_or_andNot (h : exts owner = none) : (maskOf exts ||| owner.bit) &&& ~~~owner.bit = maskOf exts := by
  have hor := bits_or (exts .p2p).isSome (exts .coll).isSome (exts .rma).isSome
  rw [maskOf]
  cases owner with
  | p2p => rw [hor.1, (bits_andNot _ _ _).1, h, isSome_none]
  | coll => rw [hor.2.1, (bits_andNot _ _ _).2.1, h, isSome_none]
  | rma => rw [hor.2.2, (bits_andNot _ _ _).2.2, h, isSome_none]

theorem maskOf_eq_zero : maskOf exts = 0 ↔ ∀ owner, exts owner = none := by
  constructor
  · intro h owner
    by_contra hne
    have hbit := maskOf_and_bit.2 (isSome_iff_ne_none.2 hne)
    rw [h] at hbit
    exact hbit (by cases owner <;> decide)
  · intro h
    rw [maskOf, h, h, h]
    rfl

end Mask

namespace MrEntry.WF
variable {entry : MrEntry} {owner : Owner}

section

variable (h : entry.WF)
include h

theorem ownedBy_iff : entry.OwnedBy owner ↔ (entry.exts owner).isSome := by
  rw [OwnedBy, h.mask]
  exact maskOf_and_bit

theorem mask_ne_zero : entry.ownerMask ≠ 0 := by
  rw [h.mask]
  intro hzero
  obtain ⟨owner, hsome⟩ := h.owned
  rw [maskOf_eq_zero.1 hzero owner] at hsome
  cases hsome

theorem with_handle (mhandles : Owner → Nat) : MrEntry.WF { entry with mhandles := mhandles } :=
  ⟨h.base, h.size, h.fits, h.mask, h.owned⟩

theorem extend (hown : entry.OwnedBy owner) (ext : Ext owner) : (entry.extend owner ext).WF where
  base := h.base
  size := h.size
  fits := h.fits
  mask := by
    have hsome := h.ownedBy_iff.1 hown
    rw [MrEntry.extend, maskOf_update_some, maskOf_or_bit hsome]
    exact h.mask
  owned := ⟨owner, by rw [MrEntry.extend_exts, update_self]; rfl⟩

theorem own_extend (mhandle : Nat) (ext : Ext owner) : ((entry.own owner mhandle).extend owner ext).WF where
  base := h.base
  size := h.size
  fits := h.fits
  mask := by rw [MrEntry.extend, MrEntry.own, maskOf_update_some, ← h.mask]
  owned := ⟨owner, by rw [MrEntry.extend_exts, update_self]; rfl⟩

theorem own_disown (mhandle : Nat) (hnot : ¬ entry.OwnedBy owner) :
    ((entry.own owner mhandle).disown owner).WF ∧ ((entry.own owner mhandle).disown owner).exts = entry.exts := by
  have hnone : entry.exts owner = none := by
    rw [h.ownedBy_iff, not_isSome_iff_eq_none] at hnot
    exact hnot
  have hexts : ((entry.own owner mhandle).disown owner).exts = entry.exts := by
    rw [MrEntry.disown, MrEntry.own, ← hnone, update_eq_self]
  refine ⟨⟨h.base, h.size, h.fits, ?_, ?_⟩, hexts⟩
  · rw [hexts, MrEntry.disown, MrEntry.own, h.mask]
    exact maskOf_or_andNot hnone
  · rw [hexts]
    exact h.owned

theorem disown (hmask : (entry.disown owner).ownerMask ≠ 0) : (entry.disown owner).WF where
  base := h.base
  size := h.size
  fits := h.fits
  mask := by rw [MrEntry.disown, maskOf_update_none, ← h.mask]
  owned := by
    by_contra hnone
    refine hmask ?_
    have hmask' : (entry.disown owner).ownerMask = maskOf (entry.disown owner).exts := by
      rw [MrEntry.disown, maskOf_update_none, ← h.mask]
    rw [hmask', maskOf_eq_zero]
    intro other
    by_contra hother
    exact hnone ⟨other, isSome_iff_ne_none.2 hother⟩

end

end MrEntry.WF

theorem MrEntry.WF.exts_of_last {entry : MrEntry} {owner : Owner} (h : entry.WF) (hmask : (entry.disown owner).ownerMask = 0) :
    ∀ other, other ≠ owner → entry.exts other = none := by
  intro other hne
  rw [MrEntry.disown, h.mask] at hmask
  rw [← maskOf_update_none, maskOf_eq_zero] at hmask
  have := hmask other
  rwa [update_of_ne hne] at this

/-! ## The entries -/

/-- The entries are well formed and in order, each behind the end of the one before. -/
structure Arranged (entries : List MrEntry) : Prop where
  wf : ∀ entry ∈ entries, entry.WF
  apart : entries.Pairwise fun a b => a.baseAddr + a.size ≤ b.baseAddr

namespace Arranged
variable {entries : List MrEntry} {entry entry' : MrEntry} {idx addr : Nat}

section

variable (h : Arranged entries)
include h

theorem sorted : entries.Pairwise fun a b => a.baseAddr < b.baseAddr := by
  refine h.apart.imp_of_mem fun {a b} ha _ hab => ?_
  have := (h.wf a ha).size
  omega

theorem ascending : Increasing (entries.map (·.baseAddr)) := pairwise_map.2 h.sorted

theorem contains_unique (he : entry ∈ entries) (he' : entry' ∈ entries) (hc : entry.Contains addr)
    (hc' : entry'.Contains addr) : entry = entry' := by
  obtain ⟨i, hi, rfl⟩ := mem_iff_getElem.1 he
  obtain ⟨j, hj, rfl⟩ := mem_iff_getElem.1 he'
  rcases lt_trichotomy i j with hij | rfl | hij
  · have := pairwise_iff_getElem.1 h.apart i j hi hj hij
    exact absurd (this.trans hc'.1) (not_le.2 hc.2)
  · rfl
  · have := pairwise_iff_getElem.1 h.apart j i hj hi hij
    exact absurd (this.trans hc.1) (not_le.2 hc'.2)

theorem base_unique (he : entry ∈ entries) (he' : entry' ∈ entries) (hbase : entry.baseAddr = entry'.baseAddr) :
    entry = entry' := by
  have hc : entry.Contains entry.baseAddr := ⟨le_rfl, Nat.lt_add_of_pos_right (h.wf _ he).size⟩
  apply h.contains_unique he he' hc
  rw [hbase]
  exact ⟨le_rfl, Nat.lt_add_of_pos_right (h.wf _ he').size⟩

theorem bsearchExact_eq_some :
    bsearchExact entries addr = some (idx, entry) ↔ entries[idx]? = some entry ∧ entry.baseAddr = addr := by
  simp only [bsearchExact, bind_eq_some_iff, searchExact_eq_some h.ascending, getElem?_map, map_eq_some_iff,
    Prod.mk.injEq]
  constructor
  · rintro ⟨i, ⟨e, he, hbase⟩, e', he', rfl, rfl⟩
    rw [he] at he'
    cases he'
    exact ⟨he, hbase⟩
  · rintro ⟨he, hbase⟩
    exact ⟨idx, ⟨entry, he, hbase⟩, entry, he, rfl, rfl⟩

theorem bsearchExact_eq_none : bsearchExact entries addr = none ↔ ∀ entry ∈ entries, entry.baseAddr ≠ addr := by
  constructor
  · intro hnone entry he hbase
    obtain ⟨idx, hidx⟩ := mem_iff_getElem?.1 he
    rw [h.bsearchExact_eq_some.2 ⟨hidx, hbase⟩] at hnone
    cases hnone
  · intro hall
    cases hs : bsearchExact entries addr with
    | none => rfl
    | some found =>
      obtain ⟨he, hbase⟩ := h.bsearchExact_eq_some.1 hs
      exact absurd hbase (hall _ (mem_of_getElem? he))

end

theorem keyAt_base (hidx : entries[idx]? = some entry) : keyAt (entries.map (·.baseAddr)) idx = entry.baseAddr :=
  keyAt_eq (by rw [getElem?_map, hidx]; rfl)

theorem bsearchContaining_eq_some (h : Arranged entries) :
    bsearchContaining entries addr = some entry ↔
      entry ∈ entries ∧ entry.baseAddr ≤ addr ∧ ∀ other ∈ entries, other.baseAddr ≤ addr → other.baseAddr ≤ entry.baseAddr := by
  simp only [bsearchContaining, bind_eq_some_iff, searchContaining_eq_some h.ascending, length_map]
  constructor
  · rintro ⟨i, ⟨_, hle, hnext⟩, hi⟩
    rw [keyAt_base hi] at hle
    refine ⟨mem_of_getElem? hi, hle, fun other hother hsmall => ?_⟩
    obtain ⟨j, hj⟩ := mem_iff_getElem?.1 hother
    by_cases hij : i < j
    · have := hnext j hij (List.getElem?_eq_some_iff.1 hj).1
      rw [keyAt_base hj] at this
      omega
    · have := h.ascending.keyAt_le (not_lt.1 hij) (by simpa using (List.getElem?_eq_some_iff.1 hi).1)
      rwa [keyAt_base hi, keyAt_base hj] at this
  · rintro ⟨he, hle, hlast⟩
    obtain ⟨i, hi⟩ := mem_iff_getElem?.1 he
    refine ⟨i, ⟨(List.getElem?_eq_some_iff.1 hi).1, by rwa [keyAt_base hi], fun j hij hj => ?_⟩, hi⟩
    have hj' : entries[j]? = some entries[j] := getElem?_eq_getElem hj
    have hmore := h.ascending.keyAt_lt hij (by simpa using hj)
    rw [keyAt_base hi, keyAt_base hj'] at hmore
    rw [keyAt_base hj']
    by_contra hsmall
    have := hlast entries[j] (getElem_mem hj) (not_lt.1 hsmall)
    omega

theorem findInsertionPoint_spec (h : Arranged entries) (hnew : bsearchExact entries addr = none) :
    findInsertionPoint entries addr ≤ entries.length ∧
      (∀ entry ∈ entries.take (findInsertionPoint entries addr), entry.baseAddr < addr) ∧
      ∀ entry ∈ entries.drop (findInsertionPoint entries addr), addr < entry.baseAddr := by
  obtain ⟨hlen, hsmall, hlarge⟩ := searchInsertion_spec h.ascending addr
  rw [length_map] at hlen hlarge
  refine ⟨hlen, fun entry he => ?_, fun entry he => ?_⟩
  · obtain ⟨i, hi⟩ := mem_iff_getElem?.1 he
    have hlt : i < findInsertionPoint entries addr := by
      have hi' := (List.getElem?_eq_some_iff.1 hi).1
      rw [length_take] at hi'
      omega
    rw [getElem?_take_of_lt hlt] at hi
    have := hsmall i hlt
    rwa [keyAt_base hi] at this
  · obtain ⟨i, hi⟩ := mem_iff_getElem?.1 he
    rw [getElem?_drop] at hi
    have := (hlarge _ (Nat.le_add_right _ i) (List.getElem?_eq_some_iff.1 hi).1).trans_eq (keyAt_base hi)
    exact lt_of_le_of_ne this (h.bsearchExact_eq_none.1 hnew entry (mem_of_getElem? hi)).symm

/-! ### Edits -/

theorem set (h : Arranged entries) (hidx : entries[idx]? = some entry) (hwf : entry'.WF)
    (hbase : entry'.baseAddr = entry.baseAddr) (hsize : entry'.size = entry.size) : Arranged (entries.set idx entry') where
  wf e he := by
    rcases mem_or_eq_of_mem_set he with he | rfl
    · exact h.wf e he
    · exact hwf
  apart := by
    refine pairwise_set h.apart hidx (fun b hb => ?_) fun b hb => ?_
    · rwa [hbase, hsize]
    · rwa [hbase]

theorem erase (h : Arranged entries) (idx : Nat) : Arranged (entries.eraseIdx idx) where
  wf e he := h.wf e (mem_of_mem_eraseIdx he)
  apart := h.apart.sublist (eraseIdx_sublist ..)

theorem insert (h : Arranged entries) (hwf : entry.WF) (hidx : idx ≤ entries.length)
    (hbefore : ∀ a ∈ entries.take idx, a.baseAddr + a.size ≤ entry.baseAddr)
    (hafter : ∀ b ∈ entries.drop idx, entry.baseAddr + entry.size ≤ b.baseAddr) : Arranged (entries.insertIdx idx entry) where
  wf e he := by
    rcases (mem_insertIdx hidx).1 he with rfl | he
    · exact hwf
    · exact h.wf e he
  apart := pairwise_insertIdx h.apart hidx hbefore hafter

end Arranged

/-! ## The index -/

def MrEntry.idEntry (entry : MrEntry) : Option MrIdEntry :=
  (entry.exts .p2p).map fun ext => ⟨MrP2pExt.mrId ext, entry.baseAddr⟩

/-- The index is in order and holds the pairs of the entries; all ids are behind the counter. -/
structure Indexed (idIndex : List MrIdEntry) (entries : List MrEntry) (nextId : UInt64) : Prop where
  increasing : idIndex.Pairwise fun a b => a.mrId < b.mrId
  holds : idIndex.Perm (entries.filterMap MrEntry.idEntry)
  range : ∀ i ∈ idIndex, 0 < i.mrId ∧ i.mrId < nextId

theorem idEntry_eq_some {entry : MrEntry} {i : MrIdEntry} :
    entry.idEntry = some i ↔ ∃ ext, entry.exts .p2p = some ext ∧ MrP2pExt.mrId ext = i.mrId ∧ entry.baseAddr = i.baseAddr := by
  obtain ⟨mrId, baseAddr⟩ := i
  simp [MrEntry.idEntry]

namespace Indexed
variable {idIndex : List MrIdEntry} {entries : List MrEntry} {nextId mrId : UInt64} {baseAddr idx : Nat}

section

variable (h : Indexed idIndex entries nextId)
include h

theorem ascending : Increasing (idIndex.map (·.mrId.toNat)) :=
  pairwise_map.2 (h.increasing.imp fun hlt => UInt64.lt_iff_toNat_lt.1 hlt)

theorem bsearchId_eq_some : bsearchId idIndex mrId = some idx ↔ ∃ baseAddr, idIndex[idx]? = some ⟨mrId, baseAddr⟩ := by
  simp only [bsearchId, searchExact_eq_some h.ascending, getElem?_map, map_eq_some_iff]
  constructor
  · rintro ⟨i, hi, hid⟩
    exact ⟨i.baseAddr, by rw [hi, ← UInt64.toNat_inj.1 hid]⟩
  · rintro ⟨baseAddr, hi⟩
    exact ⟨_, hi, rfl⟩

theorem bsearchId_eq_none (hnone : bsearchId idIndex mrId = none) : ∀ i ∈ idIndex, i.mrId ≠ mrId := by
  rintro ⟨_, baseAddr⟩ hi rfl
  obtain ⟨idx, hidx⟩ := mem_iff_getElem?.1 hi
  rw [h.bsearchId_eq_some.2 ⟨baseAddr, hidx⟩] at hnone
  cases hnone

theorem id_unique {i j : MrIdEntry} (hi : i ∈ idIndex) (hj : j ∈ idIndex) (hid : i.mrId = j.mrId) : i = j := by
  obtain ⟨m, hm, rfl⟩ := mem_iff_getElem.1 hi
  obtain ⟨n, hn, rfl⟩ := mem_iff_getElem.1 hj
  rcases lt_trichotomy m n with hmn | rfl | hmn
  · exact absurd (hid ▸ pairwise_iff_getElem.1 h.increasing m n hm hn hmn) (UInt64.lt_irrefl _)
  · rfl
  · exact absurd (hid ▸ pairwise_iff_getElem.1 h.increasing n m hn hm hmn) (UInt64.lt_irrefl _)

end

variable {entries' : List MrEntry}

section

variable (h : Indexed idIndex entries nextId)
include h

theorem congr {nextId' : UInt64} (hperm : (entries'.filterMap MrEntry.idEntry).Perm (entries.filterMap MrEntry.idEntry))
    (hle : nextId ≤ nextId') : Indexed idIndex entries' nextId' where
  increasing := h.increasing
  holds := h.holds.trans hperm.symm
  range i hi := ⟨(h.range i hi).1, UInt64.lt_of_lt_of_le (h.range i hi).2 hle⟩

theorem append (hlarge : ∀ i ∈ idIndex, i.mrId < mrId) (hpos : 0 < mrId) (hnext : mrId < nextId)
    (hperm : (entries'.filterMap MrEntry.idEntry).Perm (⟨mrId, baseAddr⟩ :: entries.filterMap MrEntry.idEntry)) :
    Indexed (idIndex ++ [⟨mrId, baseAddr⟩]) entries' nextId where
  increasing := pairwise_append.2
    ⟨h.increasing, pairwise_singleton .., fun i hi j hj => by rw [mem_singleton.1 hj]; exact hlarge i hi⟩
  holds := ((perm_append_singleton _ _).trans (h.holds.cons _)).trans hperm.symm
  range i hi := by
    rcases mem_append.1 hi with hi | hi
    · exact h.range i hi
    · rw [mem_singleton.1 hi]
      exact ⟨hpos, hnext⟩

theorem erase (hidx : idIndex[idx]? = some ⟨mrId, baseAddr⟩)
    (hperm : (entries.filterMap MrEntry.idEntry).Perm (⟨mrId, baseAddr⟩ :: entries'.filterMap MrEntry.idEntry)) :
    Indexed (idIndex.eraseIdx idx) entries' nextId where
  increasing := h.increasing.sublist (eraseIdx_sublist ..)
  holds := by
    obtain ⟨hlt, heq⟩ := List.getElem?_eq_some_iff.1 hidx
    have herase := getElem_cons_eraseIdx_perm hlt
    rw [heq] at herase
    exact (herase.trans (h.holds.trans hperm)).cons_inv
  range i hi := h.range i (mem_of_mem_eraseIdx hi)

end

end Indexed

/-! ## The pairs of edited entries -/

section Edits
variable {entries : List MrEntry} {entry entry' : MrEntry} {idx : Nat}

theorem filterMap_perm (hidx : entries[idx]? = some entry) : (entries.filterMap MrEntry.idEntry).Perm
    (entry.idEntry.toList ++ (entries.eraseIdx idx).filterMap MrEntry.idEntry) := by
  obtain ⟨hlt, rfl⟩ := List.getElem?_eq_some_iff.1 hidx
  have hperm := (getElem_cons_eraseIdx_perm hlt).symm.filterMap MrEntry.idEntry
  rw [filterMap_cons] at hperm
  cases he : entries[idx].idEntry <;> rw [he] at hperm <;> exact hperm

theorem filterMap_set_perm (entry' : MrEntry) (hidx : entries[idx]? = some entry) :
    ((entries.set idx entry').filterMap MrEntry.idEntry).Perm
    (entry'.idEntry.toList ++ (entries.eraseIdx idx).filterMap MrEntry.idEntry) := by
  obtain ⟨hlt, rfl⟩ := List.getElem?_eq_some_iff.1 hidx
  have hperm := (set_perm_cons_eraseIdx hlt entry').filterMap MrEntry.idEntry
  rw [filterMap_cons] at hperm
  cases he : entry'.idEntry <;> rw [he] at hperm <;> exact hperm

theorem filterMap_insertIdx_perm (entry : MrEntry) (hidx : idx ≤ entries.length) :
    ((entries.insertIdx idx entry).filterMap MrEntry.idEntry).Perm
    (entry.idEntry.toList ++ entries.filterMap MrEntry.idEntry) := by
  have hperm := (perm_insertIdx entry entries hidx).filterMap MrEntry.idEntry
  rw [filterMap_cons] at hperm
  cases he : entry.idEntry <;> rw [he] at hperm <;> exact hperm

end Edits

end FlagCX.MemReg
