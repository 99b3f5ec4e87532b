import FlagCX.MemReg.Registry

/-!
# What a failed registration leaves behind (`flagcxMrRegistryRegister`)

* `extAfter`  : what the caller's `ext` holds after a failed call.
* `Unchanged` : the entries, the ids and `ext` are as before the call.
* `Spoils`    : the calls that fail after an update they do not take back (`failed_unchanged_iff`).
-/

namespace FlagCX.MemReg
open Lib Function List

/-- An id is drawn for a P2P extension by writing it into the caller's `ext`, before the append that can fail. -/
def extAfter (out : Registered) : Request → Request
  | ⟨.p2p, some (ext : MrP2pExt)⟩ => ⟨.p2p, some (out.drawn.head?.elim ext fun id => { ext with mrId := id })⟩
  | req => req

/-- The caller sees no difference. -/
structure Unchanged (reg : MrRegistry) (c : RegisterArgs) (out : MrRegistry × Registered) : Prop where
  entries : out.1.entries = reg.entries
  idIndex : out.1.idIndex = reg.idIndex
  ext : ∀ req, c.request = some req → extAfter out.2 req = req

/-- The id that an extension is recorded under. -/
def MrRegistry.idFor (reg : MrRegistry) (ext : MrP2pExt) : UInt64 := if ext.mrId = 0 then reg.nextId else ext.mrId

/-- There is no place for the id of the extension: it is not above the ids in use, or the array cannot grow. -/
def Unlinked (reg : MrRegistry) (c : RegisterArgs) (ext : MrP2pExt) : Prop :=
  reg.idIndex.getLast?.any (reg.idFor ext ≤ ·.mrId) = true ∨ reg.idCapacity ≤ reg.idIndex.length ∧ c.idsMemory = false

/-- The extension comes without an id, and the counter has one for it. -/
def Renamed (reg : MrRegistry) (ext : MrP2pExt) : Prop := ext.mrId = 0 ∧ reg.nextId ≠ 0

/-- A call with accepted arguments fails after it has changed the handle of a subsystem that owns the entry already, or after
it has written an id into `ext`, or after it has cleared a handle or extension that stood there without an owner. -/
def SpoilsFor (reg : MrRegistry) (c : RegisterArgs) (req : Request) : Prop :=
  match bsearchExact reg.entries c.addr.toNat with
  | some (_, existing) =>
    existing.size = c.size.toNat ∧ existing.ibDevN = c.ibDevN ∧ existing.ptrType = c.ptrType ∧
      if existing.OwnedBy req.owner then
        existing.mhandles req.owner ≠ c.mhandle ∧ c.mhandle ≠ 0 ∧ ∃ ext, req.ext = some ext ∧ replaceExt existing req.owner ext = none
      else ∃ ext : MrP2pExt, req = ⟨.p2p, some ext⟩ ∧ Unlinked reg c ext ∧
        (Renamed reg ext ∨ existing.mhandles .p2p ≠ 0 ∨ existing.exts .p2p ≠ none)
  | none =>
    ¬ overlaps reg.entries (findInsertionPoint reg.entries c.addr.toNat) c.addr.toNat c.size.toNat ∧
      ensureCapacity reg c.entriesMemory ≠ none ∧ ∃ ext : MrP2pExt, req = ⟨.p2p, some ext⟩ ∧ Unlinked reg c ext ∧ Renamed reg ext

def Spoils (reg : MrRegistry) (c : RegisterArgs) : Prop :=
  ¬ (c.size = 0 ∨ c.addr = 0) ∧ ¬ (c.addr.toNat + c.size.toNat) % 2 ^ 64 < c.addr.toNat ∧
    ∃ req, c.request = some req ∧ SpoilsFor reg c req

variable {reg : MrRegistry} {c : RegisterArgs} {existing : MrEntry} {idx : Nat}

theorem bsearchExact_at {entries : List MrEntry} {addr : Nat} (h : bsearchExact entries addr = some (idx, existing)) :
    entries[idx]? = some existing := by
  unfold bsearchExact at h
  obtain ⟨k, -, hk⟩ := Option.bind_eq_some_iff.1 h
  obtain ⟨e, he, hpair⟩ := Option.map_eq_some_iff.1 hk
  cases hpair
  exact he

theorem set_eq_iff {entries : List MrEntry} (h : entries[idx]? = some existing) (entry : MrEntry) :
    entries.set idx entry = entries ↔ entry = existing := by
  obtain ⟨hlt, hat⟩ := List.getElem?_eq_some_iff.1 h
  constructor
  · intro he
    have := congrArg (·[idx]?) he
    simpa [hlt, hat] using this
  · rintro rfl
    rw [← hat]
    exact set_getElem_self hlt

theorem replaceExt_handles (existing : MrEntry) (mhandles : Owner → Nat) (owner : Owner) (ext : Ext owner) :
    replaceExt { existing with mhandles := mhandles } owner ext = none ↔ replaceExt existing owner ext = none := by
  cases owner with
  | p2p =>
    unfold replaceExt
    dsimp only
    split_ifs <;> simp
  | coll | rma => exact iff_of_false nofun nofun

theorem own_disown_eq_iff {owner : Owner} (hnot : ¬ existing.OwnedBy owner) (mhandle : Nat) :
    (existing.own owner mhandle).disown owner = existing ↔ existing.mhandles owner = 0 ∧ existing.exts owner = none := by
  have hmask : (existing.ownerMask ||| owner.bit) &&& ~~~owner.bit = existing.ownerMask := by
    have hzero : existing.ownerMask &&& owner.bit = 0 := not_not.1 hnot
    apply UInt32.toBitVec_inj.1
    ext i hi
    have := congrArg (fun m : UInt32 => m.toBitVec.getLsbD i) hzero
    simp at this ⊢
    grind
  unfold MrEntry.disown MrEntry.own
  rw [hmask]
  constructor
  · intro h
    exact ⟨by simpa using congrArg (fun e : MrEntry => e.mhandles owner) h.symm,
      by simpa using congrArg (fun e : MrEntry => e.exts owner) h.symm⟩
  · rintro ⟨hhandle, hext⟩
    simp only [update_idem]
    rw [← hhandle, ← hext, update_eq_self, update_eq_self]

variable {out : Registered}

theorem extAfter_nil (h : out.drawn = []) (req : Request) : extAfter out req = req := by
  obtain ⟨owner, ext⟩ := req
  cases owner <;> cases ext <;> simp [extAfter, h]

theorem unchanged_of_refused (result : Result) : Unchanged reg c (reg, ⟨result, none, []⟩) :=
  ⟨rfl, rfl, fun req _ => extAfter_nil rfl req⟩

theorem unchanged_iff {req : Request} (hreq : c.request = some req) {reg' : MrRegistry} (hids : reg'.idIndex = reg.idIndex) :
    Unchanged reg c (reg', out) ↔ reg'.entries = reg.entries ∧ extAfter out req = req := by
  constructor
  · intro h
    exact ⟨h.entries, h.ext req hreq⟩
  · rintro ⟨hentries, hext⟩
    refine ⟨hentries, hids, fun req' h => ?_⟩
    rw [hreq] at h
    cases h
    exact hext

theorem reregister_iff {req : Request} (hreq : c.request = some req) (hidx : reg.entries[idx]? = some existing) :
    ((reregister reg idx existing c req).2.result ≠ .success → Unchanged reg c (reregister reg idx existing c req)) ↔
      ¬ (existing.mhandles req.owner ≠ c.mhandle ∧ c.mhandle ≠ 0 ∧
        ∃ ext, req.ext = some ext ∧ replaceExt existing req.owner ext = none) := by
  unfold reregister
  by_cases hhandle : existing.mhandles req.owner ≠ c.mhandle ∧ c.mhandle ≠ 0
  · rw [if_pos hhandle]
    cases hext : req.ext with
    | none => simp
    | some ext =>
      have hrep := replaceExt_handles existing (update existing.mhandles req.owner c.mhandle) req.owner ext
      cases hnew : replaceExt { existing with mhandles := update existing.mhandles req.owner c.mhandle } req.owner ext with
      | some entry =>
        have hno : replaceExt existing req.owner ext ≠ none := fun hn => by
          rw [hrep.2 hn] at hnew
          cases hnew
        simp [hnew, hno]
      | none =>
        refine iff_of_false (fun h => ?_) (not_not.2 ⟨hhandle.1, hhandle.2, ext, rfl, hrep.1 hnew⟩)
        have hchanged := (h (by simp [hnew])).entries
        simp only [Option.elim, hnew] at hchanged
        have := congrArg (fun e : MrEntry => e.mhandles req.owner) ((set_eq_iff hidx _).1 hchanged)
        exact hhandle.1 (by simpa using this.symm)
  · rw [if_neg hhandle]
    refine iff_of_true (fun hne => ?_) fun h => hhandle ⟨h.1, h.2.1⟩
    dsimp only at hne ⊢
    cases hres : req.ext.elim (some existing) (replaceExt existing req.owner) with
    | none => refine (unchanged_iff hreq ?_).2 ⟨(set_eq_iff hidx _).2 rfl, extAfter_nil ?_ req⟩ <;> rfl
    | some entry =>
      rw [hres] at hne
      exact absurd rfl hne

theorem assignMrId_frame (reg : MrRegistry) (ext : MrP2pExt) :
    (assignMrId reg ext).2.1.entries = reg.entries ∧ (assignMrId reg ext).2.1.idIndex = reg.idIndex ∧
      (assignMrId reg ext).2.1.idCapacity = reg.idCapacity ∧ (assignMrId reg ext).1.mrId = reg.idFor ext := by
  unfold assignMrId MrRegistry.idFor
  by_cases hid : ext.mrId = 0
  · rw [if_pos hid, if_pos hid]
    exact ⟨rfl, rfl, rfl, rfl⟩
  · rw [if_neg hid, if_neg hid]
    exact ⟨rfl, rfl, rfl, rfl⟩

theorem extAfter_drawn (reg : MrRegistry) (ext : MrP2pExt) (h : out.drawn = (assignMrId reg ext).2.2) :
    extAfter out ⟨.p2p, some ext⟩ = ⟨.p2p, some ext⟩ ↔ ¬ Renamed reg ext := by
  unfold Renamed
  by_cases hid : ext.mrId = 0
  · rw [assignMrId, if_pos hid] at h
    obtain ⟨mrId, hasIpc, ipcHandleSize, ipcHandle⟩ := ext
    obtain rfl : mrId = 0 := hid
    simp [extAfter, h]
  · rw [assignMrId, if_neg hid] at h
    exact iff_of_true (extAfter_nil h _) fun h => hid h.1

theorem append_cases (reg : MrRegistry) (c : RegisterArgs) (ext : MrP2pExt) :
    (Unlinked reg c ext ∧ ∃ result, result ≠ .success ∧ idIndexAppend (assignMrId reg ext).2.1
      (assignMrId reg ext).1.mrId c.addr.toNat c.idsMemory = .error result) ∨
    (¬ Unlinked reg c ext ∧ ∃ reg', idIndexAppend (assignMrId reg ext).2.1
      (assignMrId reg ext).1.mrId c.addr.toNat c.idsMemory = .ok reg') := by
  obtain ⟨-, hids, hcap, hid⟩ := assignMrId_frame reg ext
  unfold idIndexAppend Unlinked
  rw [hids, hcap, hid]
  split_ifs with hlast hroom hmemory
  · exact .inl ⟨.inl hlast, _, by decide, rfl⟩
  · exact .inr ⟨fun h => h.elim hlast fun h => Nat.not_le.2 hroom h.1, _, rfl⟩
  · refine .inr ⟨fun h => h.elim hlast fun h => ?_, _, rfl⟩
    rw [hmemory] at h
    cases h.2
  · exact .inl ⟨.inr ⟨Nat.not_lt.1 hroom, Bool.eq_false_iff.2 hmemory⟩, _, by decide, rfl⟩

section

variable {owner : Owner} {ext : Ext owner} (hreq : c.request = some ⟨owner, some ext⟩)
include hreq

theorem addOwner_iff (hidx : reg.entries[idx]? = some existing) (hnot : ¬ existing.OwnedBy owner) :
    ((addOwner reg idx existing c owner ext).2.result ≠ .success → Unchanged reg c (addOwner reg idx existing c owner ext)) ↔
      ¬ ∃ ext' : MrP2pExt, (⟨owner, some ext⟩ : Request) = ⟨.p2p, some ext'⟩ ∧ Unlinked reg c ext' ∧
        (Renamed reg ext' ∨ existing.mhandles .p2p ≠ 0 ∨ existing.exts .p2p ≠ none) := by
  cases owner with
  | coll | rma =>
    refine iff_of_true (fun hne => ?_) fun ⟨ext, h, _⟩ => by cases h
    unfold addOwner drawOutId at hne
    dsimp only at hne
    split_ifs at hne <;> exact absurd rfl hne
  | p2p =>
    obtain ⟨hentries, hids, -, -⟩ := assignMrId_frame reg ext
    unfold addOwner
    dsimp only
    rcases append_cases reg c ext with ⟨hun, result, hresult, happend⟩ | ⟨hun, reg', happend⟩
    · rw [happend]
      refine (forall_prop_of_true hresult).trans ((unchanged_iff hreq ?_).trans ?_)
      · exact hids
      dsimp only
      rw [hentries, set_eq_iff hidx, own_disown_eq_iff hnot, extAfter_drawn reg ext rfl]
      constructor
      · rintro ⟨⟨hhandle, hnone⟩, hid⟩ ⟨ext', hreq', -, hbad⟩
        cases hreq'
        exact hbad.elim hid fun h => h.elim (· hhandle) (· hnone)
      · intro h
        simp only [not_exists, not_and, not_or, not_not] at h
        obtain ⟨hid, hclear⟩ := h ext rfl hun
        exact ⟨hclear, hid⟩
    · rw [happend]
      refine iff_of_true (fun hne => absurd rfl hne) ?_
      rintro ⟨ext', hreq', hun', -⟩
      cases hreq'
      exact hun hun'

theorem insertEntry_iff {reg' : MrRegistry} (hgrown : ensureCapacity reg c.entriesMemory = some reg') (pos : Nat) :
    ((insertEntry reg' pos c owner ext).2.result ≠ .success → Unchanged reg c (insertEntry reg' pos c owner ext)) ↔
      ¬ ∃ ext' : MrP2pExt, (⟨owner, some ext⟩ : Request) = ⟨.p2p, some ext'⟩ ∧ Unlinked reg c ext' ∧ Renamed reg ext' := by
  have hsame : reg'.entries = reg.entries ∧ reg'.idIndex = reg.idIndex ∧ reg'.nextId = reg.nextId ∧
      reg'.idCapacity = reg.idCapacity := by
    unfold ensureCapacity at hgrown
    split_ifs at hgrown <;> cases hgrown <;> exact ⟨rfl, rfl, rfl, rfl⟩
  obtain ⟨hentries₀, hids₀, hnext, hcap⟩ := hsame
  cases owner with
  | coll | rma =>
    refine iff_of_true (fun hne => ?_) fun ⟨ext, h, _⟩ => by cases h
    unfold insertEntry drawOutId at hne
    dsimp only at hne
    split_ifs at hne <;> exact absurd rfl hne
  | p2p =>
    obtain ⟨hentries, hids, -, -⟩ := assignMrId_frame reg' ext
    have hlink : Unlinked reg' c ext ↔ Unlinked reg c ext := by
      rw [Unlinked, MrRegistry.idFor, hids₀, hnext, hcap, Unlinked, MrRegistry.idFor]
    have hrenamed : Renamed reg' ext ↔ Renamed reg ext := by rw [Renamed, hnext, Renamed]
    unfold insertEntry
    dsimp only
    rcases append_cases reg' c ext with ⟨hun, result, hresult, happend⟩ | ⟨hun, reg₁, happend⟩
    · rw [happend]
      refine (forall_prop_of_true hresult).trans ((unchanged_iff hreq ?_).trans ?_)
      · exact hids.trans hids₀
      dsimp only
      rw [eraseIdx_insertIdx_self, hentries, hentries₀, extAfter_drawn reg' ext rfl, hrenamed, eq_self, true_and]
      constructor
      · rintro hid ⟨ext', hreq', -, h⟩
        cases hreq'
        exact hid h
      · exact fun h hid => h ⟨ext, rfl, hlink.1 hun, hid⟩
    · rw [happend]
      refine iff_of_true (fun hne => absurd rfl hne) ?_
      rintro ⟨ext', hreq', hun', -⟩
      cases hreq'
      exact hun (hlink.2 hun')

end

/-- **When a failed registration changes nothing.** -/
theorem failed_unchanged_iff (reg : MrRegistry) (c : RegisterArgs) :
    ((flagcxMrRegistryRegister reg c).2.result ≠ .success → Unchanged reg c (flagcxMrRegistryRegister reg c)) ↔
      ¬ Spoils reg c := by
  unfold flagcxMrRegistryRegister Spoils
  by_cases hzero : c.size = 0 ∨ c.addr = 0
  · rw [if_pos hzero]
    exact iff_of_true (fun _ => unchanged_of_refused _) fun h => h.1 hzero
  rw [if_neg hzero]
  by_cases hwrap : (c.addr.toNat + c.size.toNat) % 2 ^ 64 < c.addr.toNat
  · rw [if_pos hwrap]
    exact iff_of_true (fun _ => unchanged_of_refused _) fun h => h.2.1 hwrap
  rw [if_neg hwrap]
  cases hreq : c.request with
  | none => exact iff_of_true (fun _ => unchanged_of_refused _) (by rintro ⟨-, -, req, ⟨⟩, -⟩)
  | some req =>
    obtain ⟨owner, ext⟩ := req
    simp only [hzero, hwrap, not_false_eq_true, true_and, Option.some.injEq, exists_eq_left', SpoilsFor]
    cases hfind : bsearchExact reg.entries c.addr.toNat with
    | some found =>
      obtain ⟨idx, existing⟩ := found
      have hidx := bsearchExact_at hfind
      dsimp only
      unfold registerExisting
      by_cases hsize : existing.size ≠ c.size.toNat
      · rw [if_pos hsize]
        exact iff_of_true (fun _ => unchanged_of_refused _) fun h => hsize h.1
      rw [if_neg hsize]
      by_cases hmeta : existing.ibDevN ≠ c.ibDevN ∨ existing.ptrType ≠ c.ptrType
      · rw [if_pos hmeta]
        exact iff_of_true (fun _ => unchanged_of_refused _) fun h => hmeta.elim (· h.2.1) (· h.2.2.1)
      rw [if_neg hmeta]
      push Not at hsize hmeta
      simp only [hsize, hmeta.1, hmeta.2, true_and]
      by_cases hown : existing.OwnedBy owner
      · rw [if_pos hown, if_pos hown]
        exact reregister_iff hreq hidx
      rw [if_neg hown, if_neg hown]
      cases ext with
      | none => exact iff_of_true (fun _ => unchanged_of_refused _) (by rintro ⟨_, ⟨⟩, -⟩)
      | some ext => exact addOwner_iff hreq hidx hown
    | none =>
      dsimp only
      unfold registerNew
      dsimp only
      by_cases hover : overlaps reg.entries (findInsertionPoint reg.entries c.addr.toNat) c.addr.toNat c.size.toNat = true
      · rw [if_pos hover]
        exact iff_of_true (fun _ => unchanged_of_refused _) fun h => h.1 hover
      rw [if_neg hover]
      cases ext with
      | none => exact iff_of_true (fun _ => unchanged_of_refused _) (by rintro ⟨-, _, _, ⟨⟩, -⟩)
      | some ext =>
        dsimp only
        cases hgrown : ensureCapacity reg c.entriesMemory with
        | none => exact iff_of_true (fun _ => unchanged_of_refused _) fun h => h.2.1 rfl
        | some reg' => simpa [hover] using insertEntry_iff hreq hgrown _

/-- A page that the engine owns with handle 1 and id 1 is registered again with handle 2 and id 5. -/
theorem failed_handle_changed :
    let page : MrEntry := ⟨4096, 64, 0, 0, 1, fun _ => 1, fun | .p2p => some ⟨1, false, 0, []⟩ | _ => none⟩
    let out := flagcxMrRegistryRegister ⟨[page], 16, 2, [⟨1, 4096⟩], 16⟩
      ⟨4096, 64, 0, 0, some ⟨.p2p, some (⟨5, false, 0, []⟩ : MrP2pExt)⟩, 2, false, true, true⟩
    out.2.result = .internalError ∧ page.mhandles .p2p = 1 ∧ out.1.entries.map (·.mhandles .p2p) = [2] := by
  decide +kernel

end FlagCX.MemReg
