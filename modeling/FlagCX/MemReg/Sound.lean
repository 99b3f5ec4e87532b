import FlagCX.Lib.Guarded
import FlagCX.MemReg.Entries

/-!
# The registry in every run

* `Inv`                 : the invariant of the registry; `register_kept`, `deregister_kept`.
* `Good`                : what the registry promises, lookups included; `Inv.good`.
* `Process.Counts`      : the call does not take the last id, behind which the counter starts again at 0.
* `registry_good`       : in every run of such calls the registry is good and no id is drawn twice.
* `registry_good_counterexample` : the counter starts again at 0.
-/

namespace FlagCX.MemReg
open Lib Function List Option

/-! ## The counter -/

def maxId : UInt64 := 18446744073709551615

theorem lt_add_one {id : UInt64} (h : id ≠ maxId) : id < id + 1 := by
  unfold maxId at h
  grind

/-- The arrays are in order, and the index belongs to the entries. -/
structure Inv (reg : MrRegistry) : Prop where
  arranged : Arranged reg.entries
  indexed : Indexed reg.idIndex reg.entries reg.nextId
  next_pos : 0 < reg.nextId
  room : reg.entries.length ≤ reg.capacity
  idRoom : reg.idIndex.length ≤ reg.idCapacity

/-- The counter has not gone back, and it has passed the id that was drawn. -/
structure Draws (nextId nextId' : UInt64) (drawn : List UInt64) : Prop where
  le : nextId ≤ nextId'
  drawn : drawn = [] ∨ drawn = [nextId] ∧ nextId < nextId'

theorem Draws.none (nextId : UInt64) : Draws nextId nextId [] := ⟨UInt64.le_refl _, .inl rfl⟩

def Kept (reg : MrRegistry) (out : MrRegistry × Registered) : Prop := Inv out.1 ∧ Draws reg.nextId out.1.nextId out.2.drawn

variable {reg' : MrRegistry}

section Kept
variable {reg : MrRegistry}

theorem Inv.unchanged (h : Inv reg) (out : Registered) (hout : out.drawn = []) : Kept reg (reg, out) := by
  refine ⟨h, ?_⟩
  rw [hout]
  exact .none _

theorem Inv.set (h : Inv reg) {idx : Nat} {entry entry' : MrEntry} (hidx : reg.entries[idx]? = some entry) (hwf : entry'.WF)
    (hbase : entry'.baseAddr = entry.baseAddr) (hsize : entry'.size = entry.size) (hid : entry'.idEntry = entry.idEntry) :
    Inv { reg with entries := reg.entries.set idx entry' } where
  arranged := h.arranged.set hidx hwf hbase hsize
  indexed := by
    have hset := filterMap_set_perm entry' hidx
    rw [hid] at hset
    exact h.indexed.congr (hset.trans (filterMap_perm hidx).symm) (UInt64.le_refl _)
  next_pos := h.next_pos
  room := by
    rw [length_set]
    exact h.room
  idRoom := h.idRoom

theorem Inv.counter (h : Inv reg) {nextId : UInt64} (hle : reg.nextId ≤ nextId) : Inv { reg with nextId := nextId } where
  arranged := h.arranged
  indexed := h.indexed.congr (.refl _) hle
  next_pos := UInt64.lt_of_lt_of_le h.next_pos hle
  room := h.room
  idRoom := h.idRoom

theorem drawOutId_kept (h : Inv reg') (hnext : reg'.nextId = reg.nextId) {wantsId : Bool}
    (hmax : wantsId = true → reg.nextId ≠ maxId) : Kept reg (drawOutId reg' wantsId) := by
  rw [drawOutId]
  split_ifs with hw
  · have hlt := lt_add_one (hmax hw)
    rw [← hnext] at hlt
    exact ⟨h.counter (UInt64.le_of_lt hlt), ⟨hnext ▸ UInt64.le_of_lt hlt, .inr ⟨by rw [hnext], hnext ▸ hlt⟩⟩⟩
  · refine ⟨h, ?_⟩
    rw [hnext]
    exact .none _

end Kept

/-! ## Register -/

variable {entries : List MrEntry} {mrId : UInt64} {memory : Bool}

section Assign
variable {reg : MrRegistry} {ext : MrP2pExt}

/-- The id is new to the index or preset, and the counter has passed it. -/
theorem assignMrId_spec (hpos : 0 < reg.nextId) (hmax : (if ext.mrId = 0 then reg.nextId else ext.mrId) ≠ maxId) :
    (assignMrId reg ext).2.1 = { reg with nextId := (assignMrId reg ext).2.1.nextId } ∧
      0 < (assignMrId reg ext).1.mrId ∧ (assignMrId reg ext).1.mrId < (assignMrId reg ext).2.1.nextId ∧
      Draws reg.nextId (assignMrId reg ext).2.1.nextId (assignMrId reg ext).2.2 := by
  rw [assignMrId]
  by_cases hzero : ext.mrId = 0
  · rw [if_pos hzero] at hmax
    have hlt := lt_add_one hmax
    rw [if_pos hzero]
    dsimp only
    rw [if_neg (UInt64.not_le.2 hlt)]
    exact ⟨rfl, hpos, hlt, UInt64.le_of_lt hlt, .inr ⟨rfl, hlt⟩⟩
  · rw [if_neg hzero] at hmax
    have hlt := lt_add_one hmax
    split_ifs with hge
    · exact ⟨rfl, by grind, hlt, by grind, .inl rfl⟩
    · exact ⟨rfl, by grind, by grind, UInt64.le_refl _, .inl rfl⟩

theorem Indexed.le_last {idIndex : List MrIdEntry} {nextId : UInt64}
    (h : Indexed idIndex entries nextId) (hlast : (idIndex.getLast?.any fun last => decide (mrId ≤ last.mrId)) = false) :
    ∀ i ∈ idIndex, i.mrId < mrId := by
  intro i hi
  rcases eq_nil_or_concat idIndex with rfl | ⟨front, last, rfl⟩
  · cases hi
  · rw [concat_eq_append] at *
    have hmore : last.mrId < mrId := by simpa using hlast
    rcases mem_append.1 hi with hi | hi
    · exact UInt64.lt_trans ((pairwise_append.1 h.increasing).2.2 i hi last (mem_singleton.2 rfl)) hmore
    · rwa [mem_singleton.1 hi]

theorem length_lt_grown {length capacity : Nat} (h : length ≤ capacity) : length < grown capacity := by
  rw [grown]
  split_ifs <;> omega

theorem idIndexAppend_ok {baseAddr : Nat}
    (hroom : reg.idIndex.length ≤ reg.idCapacity) (hok : idIndexAppend reg mrId baseAddr memory = .ok reg') :
    reg' = { reg with idIndex := reg.idIndex ++ [⟨mrId, baseAddr⟩], idCapacity := reg'.idCapacity } ∧
      reg.idIndex.length < reg'.idCapacity ∧ (reg.idIndex.getLast?.any fun last => decide (mrId ≤ last.mrId)) = false := by
  rw [idIndexAppend] at hok
  split_ifs at hok with hlast hcap hmem
  · cases hok
    exact ⟨rfl, hcap, by simpa using hlast⟩
  · cases hok
    exact ⟨rfl, length_lt_grown hroom, by simpa using hlast⟩

end Assign

variable {reg : MrRegistry}

theorem link_kept {ext : MrP2pExt} {addr : Nat} (h : Inv reg)
    (hmax : (if ext.mrId = 0 then reg.nextId else ext.mrId) ≠ maxId)
    (hok : idIndexAppend (assignMrId reg ext).2.1 (assignMrId reg ext).1.mrId addr memory = .ok reg')
    (harranged : Arranged entries) (hroom : entries.length ≤ reg.capacity)
    (hperm : (entries.filterMap MrEntry.idEntry).Perm
      (⟨(assignMrId reg ext).1.mrId, addr⟩ :: reg.entries.filterMap MrEntry.idEntry)) :
    Inv { reg' with entries := entries } ∧ Draws reg.nextId reg'.nextId (assignMrId reg ext).2.2 := by
  obtain ⟨hframe, hpos, hlt, hdraws⟩ := assignMrId_spec h.next_pos hmax
  have hcounter := h.counter hdraws.le
  rw [← hframe] at hcounter
  obtain ⟨happend, hcap, hlast⟩ := idIndexAppend_ok hcounter.idRoom hok
  have hentries : (assignMrId reg ext).2.1.entries = reg.entries := by rw [hframe]
  have hcapacity : (assignMrId reg ext).2.1.capacity = reg.capacity := by rw [hframe]
  rw [happend]
  refine ⟨⟨harranged, ?_, hcounter.next_pos, hcapacity.symm ▸ hroom, ?_⟩, hdraws⟩
  · refine hcounter.indexed.append (hcounter.indexed.le_last hlast) hpos hlt ?_
    rwa [hentries]
  · rw [length_append]
    exact hcap

/-! ### An entry with the base address -/

variable {owner : Owner}

section Existing
variable {reg : MrRegistry} {idx : Nat} {existing : MrEntry}

theorem Inv.id_ne_zero (h : Inv reg) (hmem : existing ∈ reg.entries) {ext : MrP2pExt} (hext : existing.exts .p2p = some ext) :
    ext.mrId ≠ 0 := by
  have hpair : ⟨ext.mrId, existing.baseAddr⟩ ∈ reg.idIndex := h.indexed.holds.mem_iff.2
    (mem_filterMap.2 ⟨existing, hmem, idEntry_eq_some.2 ⟨ext, hext, rfl, rfl⟩⟩)
  exact (UInt64.ne_of_lt (h.indexed.range _ hpair).1).symm

variable {entry : MrEntry}

theorem idEntry_extend (hne : owner ≠ .p2p) (ext : Ext owner) : (entry.extend owner ext).idEntry = entry.idEntry := by
  rw [MrEntry.idEntry, MrEntry.extend_exts, update_of_ne hne.symm]
  rfl

theorem idEntry_extend_p2p (ext : MrP2pExt) : (entry.extend .p2p ext).idEntry = some ⟨ext.mrId, entry.baseAddr⟩ := by rfl

variable {ext : Ext owner}

theorem replaceExt_spec {entry' : MrEntry} (hwf : entry.WF) (hown : entry.OwnedBy owner)
    (hid : ∀ prev, entry.exts .p2p = some prev → MrP2pExt.mrId prev ≠ 0) (h : replaceExt entry owner ext = some entry') :
    entry'.WF ∧ entry'.baseAddr = entry.baseAddr ∧ entry'.size = entry.size ∧ entry'.idEntry = entry.idEntry := by
  cases owner with
  | p2p =>
    obtain ⟨prev, hprev⟩ := isSome_iff_exists.1 (hwf.ownedBy_iff.1 hown)
    have hold : entry.idEntry = some ⟨MrP2pExt.mrId prev, entry.baseAddr⟩ := idEntry_eq_some.2 ⟨prev, hprev, rfl, rfl⟩
    rw [replaceExt] at h
    rw [hprev, map_some, getD_some] at h
    split_ifs at h with hconflict hzero
    · cases h
      refine ⟨hwf.extend hown _, rfl, rfl, ?_⟩
      rw [idEntry_extend_p2p, hold]
    · cases h
      refine ⟨hwf.extend hown _, rfl, rfl, ?_⟩
      have hsame : MrP2pExt.mrId ext = MrP2pExt.mrId prev := by
        by_contra hne
        exact hconflict ⟨hzero, hid prev hprev, hne⟩
      rw [idEntry_extend_p2p, hold, hsame]
  | coll | rma =>
    cases h
    exact ⟨hwf.extend hown _, rfl, rfl, idEntry_extend (by decide) _⟩

theorem with_handle_spec (hwf : entry.WF) (owner : Owner) (mhandle : Nat) :
    let entry' := if entry.mhandles owner ≠ mhandle ∧ mhandle ≠ 0 then
      { entry with mhandles := update entry.mhandles owner mhandle } else entry
    entry'.WF ∧ entry'.baseAddr = entry.baseAddr ∧ entry'.size = entry.size ∧ entry'.exts = entry.exts := by
  split_ifs
  · exact ⟨hwf.with_handle _, rfl, rfl, rfl⟩
  · exact ⟨hwf, rfl, rfl, rfl⟩

theorem reregister_kept (h : Inv reg) (hidx : reg.entries[idx]? = some existing) {c : RegisterArgs} {req : Request}
    (hown : existing.OwnedBy req.owner) : Kept reg (reregister reg idx existing c req) := by
  have hmem := mem_of_getElem? hidx
  unfold reregister
  obtain ⟨hwf, hbase, hsize, hexts⟩ := with_handle_spec (h.arranged.wf _ hmem) req.owner c.mhandle
  generalize (if existing.mhandles req.owner ≠ c.mhandle ∧ c.mhandle ≠ 0 then
    { existing with mhandles := update existing.mhandles req.owner c.mhandle } else existing) = entry at *
  have hid : entry.idEntry = existing.idEntry := by rw [MrEntry.idEntry, MrEntry.idEntry, hexts, hbase]
  have hkept : ∀ entry', entry'.WF ∧ entry'.baseAddr = entry.baseAddr ∧ entry'.size = entry.size ∧ entry'.idEntry = entry.idEntry →
      ∀ out : Registered, out.drawn = [] → Kept reg ({ reg with entries := reg.entries.set idx entry' }, out) := by
    rintro entry' ⟨hwf', hbase', hsize', hid'⟩ out hout
    refine ⟨h.set hidx hwf' (hbase'.trans hbase) (hsize'.trans hsize) (hid'.trans hid), ?_⟩
    rw [hout]
    exact .none _
  dsimp only
  cases hext : req.ext with
  | none => exact hkept entry ⟨hwf, rfl, rfl, rfl⟩ _ rfl
  | some ext =>
    rw [elim_some]
    cases hreplace : replaceExt entry req.owner ext with
    | none => exact hkept entry ⟨hwf, rfl, rfl, rfl⟩ _ rfl
    | some entry' =>
      refine hkept entry' (replaceExt_spec hwf ?_ (fun prev hprev => ?_) hreplace) _ rfl
      · rw [hwf.ownedBy_iff, hexts]
        exact (h.arranged.wf _ hmem).ownedBy_iff.1 hown
      · rw [hexts] at hprev
        exact h.id_ne_zero hmem hprev

def takenId (reg : MrRegistry) (wantsId : Bool) : (owner : Owner) → Ext owner → Option UInt64
  | .p2p, (ext : MrP2pExt) => some (if ext.mrId = 0 then reg.nextId else ext.mrId)
  | _, _ => if wantsId then some reg.nextId else none

theorem drawOwner_kept {es : List MrEntry} {wantsId : Bool} (h : Inv { reg with entries := es })
    (hne : owner ≠ .p2p) (hmax : takenId reg wantsId owner ext ≠ some maxId) :
    Kept reg (drawOutId { reg with entries := es } wantsId) := by
  have htaken : takenId reg wantsId owner ext = if wantsId then some reg.nextId else none := by
    cases owner with
    | p2p => exact absurd rfl hne
    | coll | rma => rfl
  refine drawOutId_kept h rfl fun hw heq => hmax ?_
  rw [htaken, if_pos hw, heq]

theorem addOwner_kept (h : Inv reg) (hidx : reg.entries[idx]? = some existing) {c : RegisterArgs}
    (haddr : existing.baseAddr = c.addr.toNat) (hnew : ¬ existing.OwnedBy owner)
    (hmax : takenId reg c.wantsId owner ext ≠ some maxId) : Kept reg (addOwner reg idx existing c owner ext) := by
  have hwf := h.arranged.wf _ (mem_of_getElem? hidx)
  cases owner with
  | coll | rma =>
    exact drawOwner_kept (h.set hidx (hwf.own_extend c.mhandle ext) rfl rfl (idEntry_extend (by decide) ext)) (by decide) hmax
  | p2p =>
    have hmax' : (if MrP2pExt.mrId ext = 0 then reg.nextId else MrP2pExt.mrId ext) ≠ maxId := fun heq => hmax (congrArg some heq)
    rw [addOwner]
    obtain ⟨hframe, -, -, hdraws⟩ := assignMrId_spec h.next_pos hmax'
    have hentries : (assignMrId reg ext).2.1.entries = reg.entries := by rw [hframe]
    cases happend : idIndexAppend (assignMrId reg ext).2.1 (assignMrId reg ext).1.mrId c.addr.toNat c.idsMemory with
    | error result =>
      -- the entry is as before
      dsimp only
      rw [happend]
      obtain ⟨hwf', hexts⟩ := hwf.own_disown c.mhandle hnew
      have hcounter := h.counter hdraws.le
      rw [← hframe] at hcounter
      have hidx' : (assignMrId reg ext).2.1.entries[idx]? = some existing := by rw [hentries, hidx]
      refine ⟨hcounter.set hidx' hwf' rfl rfl ?_, hdraws⟩
      rw [MrEntry.idEntry, hexts]
      rfl
    | ok reg' =>
      dsimp only
      rw [happend]
      have hentries' : reg'.entries = reg.entries := by
        rw [(idIndexAppend_ok (by rw [hframe]; exact h.idRoom) happend).1]
        exact hentries
      dsimp only
      rw [hentries']
      have hwf' : ((existing.own .p2p c.mhandle).extend .p2p (assignMrId reg ext).1).WF := hwf.own_extend c.mhandle _
      have harranged := h.arranged.set hidx hwf' rfl rfl
      refine link_kept h hmax' happend harranged ?_ ?_
      · rw [length_set]
        exact h.room
      · have hnone : existing.idEntry = none := by
          rw [hwf.ownedBy_iff, not_isSome_iff_eq_none] at hnew
          rw [MrEntry.idEntry, hnew]
          rfl
        have hold := filterMap_perm hidx
        rw [hnone] at hold
        have hset := filterMap_set_perm ((existing.own .p2p c.mhandle).extend .p2p (assignMrId reg ext).1) hidx
        rw [idEntry_extend_p2p, MrEntry.own_baseAddr, haddr] at hset
        exact hset.trans (hold.symm.cons _)

end Existing

/-! ### A new entry -/

section New
variable {reg : MrRegistry} {c : RegisterArgs}

theorem addrSub_eq {a b : Nat} (h : b ≤ a) (ha : a < 2 ^ 64) : addrSub a b = a - b := by
  rw [addrSub, show a + (2 ^ 64 - b) = a - b + 2 ^ 64 by omega, Nat.add_mod_right, Nat.mod_eq_of_lt (by omega)]

/-- The region of the call does not wrap. -/
structure RegisterArgs.Fits (c : RegisterArgs) : Prop where
  addr : 0 < c.addr.toNat
  size : 0 < c.size.toNat
  fits : c.addr.toNat + c.size.toNat < 2 ^ 64

theorem RegisterArgs.fits_of_checks (hzero : ¬ (c.size = 0 ∨ c.addr = 0))
    (hwrap : ¬ (c.addr.toNat + c.size.toNat) % 2 ^ 64 < c.addr.toNat) : c.Fits := by
  have hs := c.size.toNat_lt
  obtain ⟨hsize, haddr⟩ := not_or.1 hzero
  have hsize' : c.size.toNat ≠ 0 := fun h => hsize (UInt64.toNat_inj.1 h)
  have haddr' : c.addr.toNat ≠ 0 := fun h => haddr (UInt64.toNat_inj.1 h)
  exact ⟨Nat.pos_of_ne_zero haddr', Nat.pos_of_ne_zero hsize', by omega⟩

theorem newEntry_extend_wf (hfits : c.Fits) (ext : Ext owner) : ((newEntry c owner).extend owner ext).WF where
  base := hfits.addr
  size := hfits.size
  fits := hfits.fits
  mask := by
    have hnone : maskOf (newEntry c owner).exts = 0 := maskOf_eq_zero.2 fun _ => rfl
    rw [MrEntry.extend, maskOf_update_some, hnone, UInt32.zero_or]
    rfl
  owned := ⟨owner, by rw [MrEntry.extend_exts, update_self]; rfl⟩

theorem overlaps_eq_false {pos addr size : Nat} (h : ¬ overlaps entries pos addr size) :
    (∀ left, 0 < pos → entries[pos - 1]? = some left → ¬ addrSub addr left.baseAddr < left.size) ∧
      ∀ right, entries[pos]? = some right → ¬ addrSub right.baseAddr addr < size := by
  constructor
  · intro left hpos hleft hlt
    apply h
    simp [overlaps, hpos, hleft, hlt]
  · intro right hright hlt
    apply h
    simp [overlaps, hright, hlt]

theorem insert_arranged (h : Arranged reg.entries) (hfits : c.Fits) (hnew : bsearchExact reg.entries c.addr.toNat = none)
    (hoverlaps : ¬ overlaps reg.entries (findInsertionPoint reg.entries c.addr.toNat) c.addr.toNat c.size.toNat)
    (ext : Ext owner) : Arranged (reg.entries.insertIdx (findInsertionPoint reg.entries c.addr.toNat)
      ((newEntry c owner).extend owner ext)) := by
  obtain ⟨hlen, hbefore, hafter⟩ := h.findInsertionPoint_spec hnew
  generalize findInsertionPoint reg.entries c.addr.toNat = pos at *
  obtain ⟨hleft, hright⟩ := overlaps_eq_false hoverlaps
  have haddr := c.addr.toNat_lt
  refine h.insert (newEntry_extend_wf hfits ext) hlen (fun a ha => ?_) fun b hb => ?_
  · show a.baseAddr + a.size ≤ c.addr.toNat
    obtain ⟨i, hi, rfl⟩ := mem_iff_getElem.1 ha
    rw [length_take] at hi
    have hlast : reg.entries[pos - 1]? = some reg.entries[pos - 1] := getElem?_eq_getElem (by omega)
    have hmem : reg.entries[pos - 1] ∈ reg.entries.take pos := by
      rw [mem_take_iff_getElem]
      exact ⟨pos - 1, by omega, rfl⟩
    have hsmall := hbefore _ hmem
    have hend := hleft _ (by omega) hlast
    rw [addrSub_eq hsmall.le haddr] at hend
    rw [getElem_take]
    by_cases hi' : i = pos - 1
    · subst hi'
      omega
    · have := pairwise_iff_getElem.1 h.apart i (pos - 1) (by omega) (by omega) (by omega)
      omega
  · show c.addr.toNat + c.size.toNat ≤ b.baseAddr
    obtain ⟨i, hi, rfl⟩ := mem_iff_getElem.1 hb
    rw [length_drop] at hi
    have hfirst : reg.entries[pos]? = some reg.entries[pos] := getElem?_eq_getElem (by omega)
    have hmem : reg.entries[pos] ∈ reg.entries.drop pos := by
      rw [mem_drop_iff_getElem]
      exact ⟨0, by omega, rfl⟩
    have hlarge := hafter _ hmem
    have hfar := (h.wf _ (mem_of_mem_drop hmem)).fits
    have hstart := hright _ hfirst
    rw [addrSub_eq hlarge.le (by omega)] at hstart
    rw [getElem_drop]
    by_cases hi' : i = 0
    · subst hi'
      simp only [Nat.add_zero]
      omega
    · have := pairwise_iff_getElem.1 h.apart pos (pos + i) (by omega) (by omega) (by omega)
      omega

theorem ensureCapacity_some (h : Inv reg) (hsome : ensureCapacity reg memory = some reg') :
    Inv reg' ∧ reg' = { reg with capacity := reg'.capacity } ∧ reg.entries.length < reg'.capacity := by
  rw [ensureCapacity] at hsome
  split_ifs at hsome with hcap hmem
  · cases hsome
    exact ⟨h, rfl, hcap⟩
  · cases hsome
    have hlt := length_lt_grown h.room
    exact ⟨⟨h.arranged, h.indexed, h.next_pos, hlt.le, h.idRoom⟩, rfl, hlt⟩

theorem insertEntry_kept (h : Inv reg) (hroom : reg.entries.length < reg.capacity) (hfits : c.Fits) {ext : Ext owner}
    (hnew : bsearchExact reg.entries c.addr.toNat = none)
    (hoverlaps : ¬ overlaps reg.entries (findInsertionPoint reg.entries c.addr.toNat) c.addr.toNat c.size.toNat)
    (hmax : takenId reg c.wantsId owner ext ≠ some maxId) :
    Kept reg (insertEntry reg (findInsertionPoint reg.entries c.addr.toNat) c owner ext) := by
  obtain ⟨hlen, -, -⟩ := h.arranged.findInsertionPoint_spec hnew
  have harranged := fun ext : Ext owner => insert_arranged h.arranged hfits hnew hoverlaps ext
  generalize findInsertionPoint reg.entries c.addr.toNat = pos at *
  have hother : owner ≠ .p2p → Inv { reg with entries := reg.entries.insertIdx pos ((newEntry c owner).extend owner ext) } := by
    intro hne
    have hid : ((newEntry c owner).extend owner ext).idEntry = none := by
      rw [idEntry_extend hne]
      rfl
    have hperm := filterMap_insertIdx_perm ((newEntry c owner).extend owner ext) hlen
    rw [hid] at hperm
    refine ⟨harranged ext, h.indexed.congr hperm (UInt64.le_refl _), h.next_pos, ?_, h.idRoom⟩
    rw [length_insertIdx_of_le_length hlen]
    exact hroom
  cases owner with
  | coll | rma => exact drawOwner_kept (hother (by decide)) (by decide) hmax
  | p2p =>
    have hmax' : (if MrP2pExt.mrId ext = 0 then reg.nextId else MrP2pExt.mrId ext) ≠ maxId := fun heq => hmax (congrArg some heq)
    rw [insertEntry]
    obtain ⟨hframe, -, -, hdraws⟩ := assignMrId_spec h.next_pos hmax'
    have hentries : (assignMrId reg ext).2.1.entries = reg.entries := by rw [hframe]
    cases happend : idIndexAppend (assignMrId reg ext).2.1 (assignMrId reg ext).1.mrId c.addr.toNat c.idsMemory with
    | error result =>
      dsimp only
      rw [happend]
      rw [eraseIdx_insertIdx_self]
      have hcounter := h.counter hdraws.le
      rw [← hframe] at hcounter
      exact ⟨hcounter, hdraws⟩
    | ok reg' =>
      dsimp only
      rw [happend]
      have hentries' : reg'.entries = reg.entries := by
        rw [(idIndexAppend_ok (by rw [hframe]; exact h.idRoom) happend).1]
        exact hentries
      dsimp only
      rw [hentries']
      refine link_kept h hmax' happend (harranged _) ?_ ?_
      · rw [length_insertIdx_of_le_length hlen]
        exact hroom
      · have hperm := filterMap_insertIdx_perm ((newEntry c .p2p).extend .p2p (assignMrId reg ext).1) hlen
        rwa [idEntry_extend_p2p] at hperm

end New

/-! ### Any call -/

def NewOwner (reg : MrRegistry) (addr : UInt64) (owner : Owner) : Prop :=
  ∀ found, bsearchExact reg.entries addr.toNat = some found → ¬ found.2.OwnedBy owner

/-- The call does not take the last id for a new owner. -/
def Counts (reg : MrRegistry) (c : RegisterArgs) : Prop :=
  ∀ req ext, c.request = some req → req.ext = some ext → NewOwner reg c.addr req.owner →
    takenId reg c.wantsId req.owner ext ≠ some maxId

theorem register_kept {c : RegisterArgs} (h : Inv reg) (hc : Counts reg c) : Kept reg (flagcxMrRegistryRegister reg c) := by
  rw [flagcxMrRegistryRegister]
  by_cases hzero : c.size = 0 ∨ c.addr = 0
  · rw [if_pos hzero]
    exact h.unchanged _ rfl
  rw [if_neg hzero]
  by_cases hwrap : (c.addr.toNat + c.size.toNat) % 2 ^ 64 < c.addr.toNat
  · rw [if_pos hwrap]
    exact h.unchanged _ rfl
  rw [if_neg hwrap]
  cases hreq : c.request with
  | none => exact h.unchanged _ rfl
  | some req =>
    cases hfound : bsearchExact reg.entries c.addr.toNat with
    | some found =>
      obtain ⟨hidx, hbase⟩ := h.arranged.bsearchExact_eq_some.1 hfound
      dsimp only
      rw [registerExisting]
      split_ifs with hsize hmeta hown
      · exact h.unchanged _ rfl
      · exact h.unchanged _ rfl
      · exact reregister_kept h hidx hown
      · cases hext : req.ext with
        | none => exact h.unchanged _ rfl
        | some ext =>
          refine addOwner_kept h hidx hbase hown (hc req ext hreq hext fun found hfound' => ?_)
          rw [hfound] at hfound'
          cases hfound'
          exact hown
    | none =>
      dsimp only
      rw [registerNew]
      split_ifs with hoverlaps
      · exact h.unchanged _ rfl
      · cases hext : req.ext with
        | none => exact h.unchanged _ rfl
        | some ext =>
          have hmax := hc req ext hreq hext fun found hfound' => by
            rw [hfound] at hfound'
            cases hfound'
          cases hcap : ensureCapacity reg c.entriesMemory with
          | none => exact h.unchanged _ rfl
          | some reg' =>
            obtain ⟨h', hframe, hroom⟩ := ensureCapacity_some h hcap
            have hentries : reg'.entries = reg.entries := by rw [hframe]
            have hnext : reg'.nextId = reg.nextId := by rw [hframe]
            have hkept : Kept reg' (insertEntry reg' (findInsertionPoint reg'.entries c.addr.toNat) c req.owner ext) :=
              insertEntry_kept h' (by rwa [hentries])
              (RegisterArgs.fits_of_checks hzero hwrap) (by rwa [hentries]) (by rwa [hentries]) (by
                rw [hframe]
                exact hmax)
            rw [hentries] at hkept
            rw [Kept, hnext] at hkept
            exact hkept

/-! ## Deregister -/

section Deregister
variable {reg : MrRegistry} {entry : MrEntry} {idx : Nat}

theorem unlinkId_spec (h : Inv reg) (hidx : reg.entries[idx]? = some entry) (hperm : (entries.filterMap MrEntry.idEntry).Perm
      ((entry.disown owner).idEntry.toList ++ (reg.entries.eraseIdx idx).filterMap MrEntry.idEntry)) :
    ∃ idIndex, unlinkId reg entry owner = { reg with idIndex := idIndex } ∧ Indexed idIndex entries reg.nextId ∧
      idIndex.length ≤ reg.idIndex.length := by
  have hold := filterMap_perm hidx
  -- the index stays when the pair of the entry does
  have hstay : (entry.disown owner).idEntry = entry.idEntry → Indexed reg.idIndex entries reg.nextId := fun hsame => by
    rw [hsame] at hperm
    exact h.indexed.congr (hperm.trans hold.symm) (UInt64.le_refl _)
  have hother : owner ≠ .p2p → (entry.disown owner).idEntry = entry.idEntry := fun hne => by
    rw [MrEntry.idEntry, MrEntry.disown_exts, update_of_ne hne.symm]
    rfl
  cases owner with
  | coll => exact ⟨_, rfl, hstay (hother (by decide)), le_rfl⟩
  | rma => exact ⟨_, rfl, hstay (hother (by decide)), le_rfl⟩
  | p2p =>
    have hnone : (entry.disown .p2p).idEntry = none := by rfl
    rw [unlinkId]
    cases hext : entry.exts .p2p with
    | none =>
      refine ⟨_, rfl, hstay ?_, le_rfl⟩
      rw [hnone, MrEntry.idEntry, hext]
      rfl
    | some ext =>
      have hpair : entry.idEntry = some ⟨MrP2pExt.mrId ext, entry.baseAddr⟩ := idEntry_eq_some.2 ⟨ext, hext, rfl, rfl⟩
      rw [hpair] at hold
      have hmem : ⟨MrP2pExt.mrId ext, entry.baseAddr⟩ ∈ reg.idIndex :=
        h.indexed.holds.mem_iff.2 (hold.mem_iff.2 mem_cons_self)
      dsimp only
      rw [if_pos (h.id_ne_zero (mem_of_getElem? hidx) hext), idIndexRemove]
      cases hfound : bsearchId reg.idIndex (MrP2pExt.mrId ext) with
      | none => exact absurd rfl (h.indexed.bsearchId_eq_none hfound _ hmem)
      | some mid =>
        obtain ⟨baseAddr, hmid⟩ := h.indexed.bsearchId_eq_some.1 hfound
        have hsame := h.indexed.id_unique (mem_of_getElem? hmid) hmem rfl
        rw [hsame] at hmid
        exact ⟨_, rfl, h.indexed.erase hmid (hold.trans (hperm.symm.cons _)), length_eraseIdx_le ..⟩

theorem Inv.unlink (h : Inv reg) (hidx : reg.entries[idx]? = some entry)
    (harranged : Arranged entries) (hlen : entries.length ≤ reg.entries.length)
    (hperm : (entries.filterMap MrEntry.idEntry).Perm
      ((entry.disown owner).idEntry.toList ++ (reg.entries.eraseIdx idx).filterMap MrEntry.idEntry)) :
    Inv { unlinkId reg entry owner with entries := entries } ∧ (unlinkId reg entry owner).nextId = reg.nextId := by
  obtain ⟨idIndex, hunlink, hindexed, hids⟩ := unlinkId_spec h hidx hperm
  rw [hunlink]
  exact ⟨⟨harranged, hindexed, h.next_pos, hlen.trans h.room, hids.trans h.idRoom⟩, rfl⟩

theorem unlinkId_entries (owner : Owner) : (unlinkId reg entry owner).entries = reg.entries := by
  cases owner with
  | coll => rfl
  | rma => rfl
  | p2p =>
    rw [unlinkId]
    cases entry.exts .p2p with
    | none => rfl
    | some ext =>
      dsimp only
      split_ifs
      · rw [idIndexRemove]
        split <;> rfl
      · rfl

theorem deregister_kept (h : Inv reg) (addr : UInt64) (ownerBit : UInt32) :
    Inv (flagcxMrRegistryDeregister reg addr ownerBit).1 ∧ (flagcxMrRegistryDeregister reg addr ownerBit).1.nextId = reg.nextId := by
  rw [flagcxMrRegistryDeregister]
  cases ownerBitToIdx ownerBit with
  | none => exact ⟨h, rfl⟩
  | some owner =>
    cases hfound : bsearchExact reg.entries addr.toNat with
    | none => exact ⟨h, rfl⟩
    | some found =>
      obtain ⟨idx, entry⟩ := found
      obtain ⟨hidx, -⟩ := h.arranged.bsearchExact_eq_some.1 hfound
      have hwf := h.arranged.wf _ (mem_of_getElem? hidx)
      dsimp only
      rw [unlinkId_entries]
      by_cases hown : entry.OwnedBy owner
      case neg =>
        rw [if_pos hown]
        exact ⟨h, rfl⟩
      rw [if_neg (not_not.2 hown)]
      by_cases hlast : (entry.disown owner).ownerMask = 0
      · -- the last owner: the entry goes
        rw [if_pos hlast]
        have hgone : (entry.disown owner).exts .p2p = none := by
          rw [MrEntry.disown_exts]
          by_cases hp : owner = .p2p
          · subst hp
            exact update_self ..
          · rw [update_of_ne (Ne.symm hp)]
            exact hwf.exts_of_last hlast _ (Ne.symm hp)
        refine h.unlink hidx (h.arranged.erase idx) (length_eraseIdx_le ..) ?_
        rw [MrEntry.idEntry, hgone]
        exact .refl _
      · -- other owners stay
        rw [if_neg hlast]
        refine h.unlink hidx (h.arranged.set hidx (hwf.disown hlast) rfl rfl) ?_ (filterMap_set_perm _ hidx)
        rw [length_set]

end Deregister

/-! ## Lookup -/

section Lookup
variable {reg : MrRegistry}

theorem lookup_eq_some (h : Inv reg) {addr : UInt64} {found : Found} :
    flagcxMrRegistryLookup reg addr = some found ↔ ∃ entry ∈ reg.entries, entry.Contains addr.toNat ∧ found = entry.found := by
  have haddr := addr.toNat_lt
  rw [flagcxMrRegistryLookup]
  constructor
  · intro hfound
    split_ifs at hfound with hempty
    cases hs : bsearchContaining reg.entries addr.toNat with
    | none => rw [hs] at hfound; cases hfound
    | some entry =>
      rw [hs] at hfound
      dsimp only at hfound
      split_ifs at hfound with hin
      cases hfound
      obtain ⟨hle, hlt⟩ := hin
      rw [addrSub_eq hle haddr] at hlt
      exact ⟨entry, (h.arranged.bsearchContaining_eq_some.1 hs).1, ⟨hle, by omega⟩, rfl⟩
  · rintro ⟨entry, hmem, hin, rfl⟩
    rw [if_neg (length_pos_of_mem hmem).ne']
    have hs : bsearchContaining reg.entries addr.toNat = some entry := by
      refine h.arranged.bsearchContaining_eq_some.2 ⟨hmem, hin.1, fun other hother hle => ?_⟩
      by_contra hmore
      -- an entry behind this one begins behind the address
      obtain ⟨i, hi, rfl⟩ := mem_iff_getElem.1 hmem
      obtain ⟨j, hj, rfl⟩ := mem_iff_getElem.1 hother
      rcases lt_trichotomy i j with hij | rfl | hij
      · have := pairwise_iff_getElem.1 h.arranged.apart i j hi hj hij
        exact absurd (this.trans hle) (not_le.2 hin.2)
      · exact hmore (le_rfl)
      · exact hmore (pairwise_iff_getElem.1 h.arranged.sorted j i hj hi hij).le
    have hsub : addrSub addr.toNat entry.baseAddr < entry.size := by
      have hbegin := hin.1
      have hend := hin.2
      rw [addrSub_eq hbegin haddr]
      omega
    rw [hs]
    exact if_pos ⟨hin.1, hsub⟩

theorem lookupById_eq_some (h : Inv reg) {found : Found} : flagcxMrRegistryLookupById reg mrId = some found ↔
      ∃ entry ∈ reg.entries, (∃ ext, entry.exts .p2p = some ext ∧ MrP2pExt.mrId ext = mrId) ∧ found = entry.found := by
  rw [flagcxMrRegistryLookupById]
  constructor
  · intro hfound
    split_ifs at hfound with hzero
    cases hb : bsearchExact reg.entries (idIndexFindBaseAddr reg mrId) with
    | none => rw [hb] at hfound; cases hfound
    | some pair =>
      obtain ⟨idx, entry⟩ := pair
      rw [hb] at hfound
      dsimp only at hfound
      split_ifs at hfound with hsome
      cases hfound
      obtain ⟨hidx, hbase⟩ := h.arranged.bsearchExact_eq_some.1 hb
      have hmem := mem_of_getElem? hidx
      refine ⟨entry, hmem, ?_, rfl⟩
      -- the id is in the index, for an entry with this base address
      rw [idIndexFindBaseAddr] at hzero hbase
      cases hs : bsearchId reg.idIndex mrId with
      | none => rw [hs] at hzero; exact absurd rfl hzero
      | some mid =>
        obtain ⟨baseAddr, hmid⟩ := h.indexed.bsearchId_eq_some.1 hs
        rw [hs, bind_some, hmid] at hbase
        have hpair := h.indexed.holds.mem_iff.1 (mem_of_getElem? hmid)
        obtain ⟨entry', hmem', hid⟩ := mem_filterMap.1 hpair
        obtain ⟨ext, hext, hextId, hbase'⟩ := idEntry_eq_some.1 hid
        rw [h.arranged.base_unique hmem hmem' (hbase.trans hbase'.symm)]
        exact ⟨ext, hext, hextId⟩
  · rintro ⟨entry, hmem, ⟨ext, hext, rfl⟩, rfl⟩
    have hpair : ⟨MrP2pExt.mrId ext, entry.baseAddr⟩ ∈ reg.idIndex := h.indexed.holds.mem_iff.2
      (mem_filterMap.2 ⟨entry, hmem, idEntry_eq_some.2 ⟨ext, hext, rfl, rfl⟩⟩)
    obtain ⟨mid, hmid⟩ := mem_iff_getElem?.1 hpair
    have hs := h.indexed.bsearchId_eq_some.2 ⟨_, hmid⟩
    have hbase : idIndexFindBaseAddr reg (MrP2pExt.mrId ext) = entry.baseAddr := by
      rw [idIndexFindBaseAddr, hs, bind_some, hmid]
      rfl
    obtain ⟨idx, hidx⟩ := mem_iff_getElem?.1 hmem
    rw [hbase, if_neg (h.arranged.wf _ hmem).base.ne', h.arranged.bsearchExact_eq_some.2 ⟨hidx, rfl⟩]
    dsimp only
    rw [if_pos (by rw [hext]; rfl)]

end Lookup

/-! ## What the registry promises -/

/-- The arrays are in order, bits and extensions agree, the index is in bijection with the P2P extensions, and the lookups find
exactly what is registered. -/
structure MrRegistry.Good (reg : MrRegistry) : Prop where
  sorted : reg.entries.Pairwise fun a b => a.baseAddr < b.baseAddr
  disjoint : reg.entries.Pairwise fun a b => ∀ addr, ¬ (a.Contains addr ∧ b.Contains addr)
  owned : ∀ entry ∈ reg.entries, entry.ownerMask ≠ 0
  exts : ∀ entry ∈ reg.entries, ∀ owner, entry.OwnedBy owner ↔ (entry.exts owner).isSome
  increasing : reg.idIndex.Pairwise fun a b => a.mrId < b.mrId
  bijection : reg.idIndex.Perm (reg.entries.filterMap MrEntry.idEntry)
  lookup : ∀ addr found, flagcxMrRegistryLookup reg addr = some found ↔
    ∃ entry ∈ reg.entries, entry.Contains addr.toNat ∧ found = entry.found
  lookupById : ∀ mrId found, flagcxMrRegistryLookupById reg mrId = some found ↔
    ∃ entry ∈ reg.entries, (∃ ext, entry.exts .p2p = some ext ∧ MrP2pExt.mrId ext = mrId) ∧ found = entry.found

theorem Inv.good (h : Inv reg) : reg.Good where
  sorted := h.arranged.sorted
  disjoint := h.arranged.apart.imp fun {a b} hab addr hin => by
    have hfirst := hin.1.2
    have hsecond := hin.2.1
    omega
  owned entry he := (h.arranged.wf entry he).mask_ne_zero
  exts entry he _ := (h.arranged.wf entry he).ownedBy_iff
  increasing := h.indexed.increasing
  bijection := h.indexed.holds
  lookup _ _ := lookup_eq_some h
  lookupById _ _ := lookupById_eq_some h

/-! ## Runs -/

namespace Process

def counter (p : Process) : UInt64 := (p.flagcxGlobalMrRegistry.map (·.nextId)).getD p.gRegistryNextId

/-- The registry is in order and the counter is behind all ids drawn. -/
structure Inv (p : Process) : Prop where
  registry : ∀ reg, p.flagcxGlobalMrRegistry = some reg → MemReg.Inv reg
  counted : p.flagcxGlobalMrRegistry = none ↔ p.gRegistryRefCount = 0
  next_pos : 0 < p.gRegistryNextId
  drawn : p.drawn.Nodup
  behind : ∀ id ∈ p.drawn, id < p.counter

def Good (p : Process) : Prop := (∀ reg, p.flagcxGlobalMrRegistry = some reg → reg.Good) ∧ p.drawn.Nodup

/-- A call to register does not take the last id. -/
def Counts (p : Process) : Call → Prop
  | .register c => ∀ reg, p.flagcxGlobalMrRegistry = some reg → MemReg.Counts reg c
  | _ => True

variable {p p' : Process}

theorem Inv.start : Process.start.Inv where
  registry := fun reg h => by cases h
  counted := ⟨fun _ => rfl, fun _ => rfl⟩
  next_pos := by decide
  drawn := nodup_nil
  behind := fun id h => by cases h

theorem Inv.globalInit (h : p.Inv) (memory : Bool) : (flagcxMrRegistryGlobalInit p memory).Inv := by
  rw [flagcxMrRegistryGlobalInit]
  split_ifs with hzero hmem
  · have hnone := h.counted.2 hzero
    refine ⟨fun reg hreg => ?_, ⟨fun hreg => (by cases hreg), fun hcount => absurd hcount (Nat.succ_ne_zero _)⟩, h.next_pos, h.drawn,
      fun id hid => ?_⟩
    · cases hreg
      refine ⟨⟨fun entry he => (by cases he), .nil⟩, ⟨.nil, .nil, fun i hi => (by cases hi)⟩, h.next_pos, le_rfl, le_rfl⟩
    · have := h.behind id hid
      rw [counter, hnone] at this
      exact this
  · exact h
  · refine ⟨h.registry, ⟨fun hreg => absurd (h.counted.1 hreg) hzero, fun hcount => absurd hcount (Nat.succ_ne_zero _)⟩, h.next_pos,
      h.drawn, h.behind⟩

theorem Inv.globalRelease (h : p.Inv) : (flagcxMrRegistryGlobalRelease p).Inv := by
  rw [flagcxMrRegistryGlobalRelease]
  split_ifs with hzero hlast
  · exact h
  · refine ⟨fun reg hreg => (by cases hreg), ⟨fun _ => rfl, fun _ => rfl⟩, ?_, h.drawn, h.behind⟩
    cases hreg : p.flagcxGlobalMrRegistry with
    | none => exact h.next_pos
    | some reg => exact (h.registry reg hreg).next_pos
  · refine ⟨h.registry, ⟨fun hreg => ?_, fun hcount => absurd hcount hlast⟩, h.next_pos, h.drawn, h.behind⟩
    rw [h.counted.1 hreg] at hzero
    exact absurd (Nat.le_refl 0) hzero

theorem Inv.register (h : p.Inv) {drawn : List UInt64} (hreg : p.flagcxGlobalMrRegistry = some reg)
    (hinv : MemReg.Inv reg') (hdraws : Draws reg.nextId reg'.nextId drawn) :
    Inv { p with flagcxGlobalMrRegistry := some reg', drawn := p.drawn ++ drawn } := by
  have hbehind : ∀ id ∈ p.drawn, id < reg.nextId := fun id hid => by
    have := h.behind id hid
    rwa [counter, hreg] at this
  refine ⟨fun reg'' hreg'' => ?_, ⟨fun hnone => (by cases hnone), fun hcount => ?_⟩, h.next_pos, ?_, fun id hid => ?_⟩
  · cases hreg''
    exact hinv
  · rw [h.counted.2 hcount] at hreg
    cases hreg
  · rcases hdraws.drawn with hnil | ⟨hone, -⟩
    · rw [hnil, append_nil]
      exact h.drawn
    · rw [hone, nodup_append]
      refine ⟨h.drawn, pairwise_singleton .., fun a ha b hb heq => ?_⟩
      rw [mem_singleton.1 hb] at heq
      exact UInt64.lt_irrefl _ (heq ▸ hbehind a ha)
  · rcases mem_append.1 hid with hid | hid
    · exact UInt64.lt_of_lt_of_le (hbehind id hid) hdraws.le
    · rcases hdraws.drawn with hnil | ⟨hone, hlt⟩
      · rw [hnil] at hid
        cases hid
      · rw [hone] at hid
        rwa [mem_singleton.1 hid]

theorem Inv.step (h : p.Inv) {call : Call} (hc : p.Counts call) (hstep : p.step call = some p') : p'.Inv := by
  cases call with
  | globalInit memory =>
    cases hstep
    exact h.globalInit memory
  | globalRelease =>
    cases hstep
    exact h.globalRelease
  | register c =>
    rw [Process.step] at hstep
    cases hreg : p.flagcxGlobalMrRegistry with
    | none =>
      rw [hreg] at hstep
      cases hstep
      exact h
    | some reg =>
      rw [hreg] at hstep
      cases hstep
      obtain ⟨hinv, hdraws⟩ := register_kept (h.registry reg hreg) (hc reg hreg)
      exact h.register hreg hinv hdraws
  | deregister addr ownerBit =>
    rw [Process.step] at hstep
    cases hreg : p.flagcxGlobalMrRegistry with
    | none =>
      rw [hreg] at hstep
      cases hstep
      exact h
    | some reg =>
      rw [hreg] at hstep
      cases hstep
      obtain ⟨hinv, hnext⟩ := deregister_kept (h.registry reg hreg) addr ownerBit
      have hdraws : Draws reg.nextId (flagcxMrRegistryDeregister reg addr ownerBit).1.nextId [] := by
        rw [hnext]
        exact .none _
      have hkept := h.register hreg hinv hdraws
      rwa [append_nil] at hkept

theorem Inv.good (h : p.Inv) : p.Good := ⟨fun reg hreg => (h.registry reg hreg).good, h.drawn⟩

end Process

/-- **The registry**: as long as no call takes the last id, the arrays are in order, the lookups find exactly what is registered,
and no id is drawn twice. -/
theorem registry_good {p : Process} (h : Reach Process.step Process.Counts Process.start p) : p.Good :=
  (h.invariant Process.Inv.start fun _ _ _ hinv hc hstep => hinv.step hc hstep).good

/-! ## The last id -/

def pageWithId (mrId : UInt64) : RegisterArgs :=
  ⟨0x1000, 0x1000, 0, 0, some ⟨.p2p, some (⟨mrId, false, 0, []⟩ : MrP2pExt)⟩, 1, true, true, true⟩

def lastIdRun : List Call :=
  [.globalInit true, .register (pageWithId maxId), .deregister 0x1000 1, .register (pageWithId 0), .deregister 0x1000 1]

/-- The id 0 is left in the index without its entry. -/
theorem registry_good_counterexample : ∃ p, Reach Process.step (fun _ _ => True) Process.start p ∧ ¬ p.Good := by
  have hrun : ((exec Process.step .start lastIdRun).bind fun p => p.flagcxGlobalMrRegistry.map fun reg =>
      (p, reg.idIndex, reg.entries.length)).map (·.2) = some ([⟨0, 0x1000⟩], 0) := by decide
  obtain ⟨⟨p, idIndex, length⟩, hrun, hpair⟩ := map_eq_some_iff.1 hrun
  obtain ⟨q, hexec, hmap⟩ := bind_eq_some_iff.1 hrun
  obtain ⟨reg, hreg, heq⟩ := map_eq_some_iff.1 hmap
  cases heq
  obtain ⟨hindex, hlength⟩ := Prod.mk.inj hpair
  refine ⟨p, .of_exec (fun _ _ _ => trivial) hexec, fun hgood => ?_⟩
  have hperm := (hgood.1 reg hreg).bijection
  rw [hindex, length_eq_zero_iff.1 hlength] at hperm
  exact absurd hperm.length_eq (by decide)

/-- A page is registered with an id drawn. -/
theorem registry_good_page : ∃ p : Process, p.flagcxGlobalMrRegistry.isSome ∧ p.drawn = [1] ∧ p.Good := by
  let created := flagcxMrRegistryGlobalInit .start true
  let reg : MrRegistry := { flagcxMrRegistryCreate with nextId := 1 }
  have hinit : Reach Process.step Process.Counts .start created := .next (.globalInit true) .init trivial rfl
  have hcounts : created.Counts (.register (pageWithId 0)) := fun reg' hreg => by
    cases hreg
    intro req ext hreq hext _
    cases hreq
    cases hext
    decide
  let out := flagcxMrRegistryRegister reg (pageWithId 0)
  let p : Process := { created with flagcxGlobalMrRegistry := some out.1, drawn := out.2.drawn }
  have hp : Reach Process.step Process.Counts .start p := .next (.register (pageWithId 0)) hinit hcounts rfl
  exact ⟨p, rfl, by decide, registry_good hp⟩

end FlagCX.MemReg
