import FlagCX.Lib.BinarySearch
import FlagCX.Result

/-!
# The registry of memory regions (`flagcx_mr_registry.cc`)

Two arrays: the entries by their base addresses, and the ids of the P2P extensions by the ids. Each is edited in place under the
write lock, so that a call is one step.

* `flagcxMrRegistryRegister`     : with `registerExisting`, `reregister`, `addOwner`, `registerNew` for its branches.
* `flagcxMrRegistryLookup`, `flagcxMrRegistryFindExact`, `flagcxMrRegistryLookupById`.

Whether `realloc` finds memory is an argument. Locks, warnings and the search by handle are left out.
-/

namespace FlagCX.MemReg
open Lib Function

/-! ## Data -/

/-- `FLAGCX_MR_OWNER_P2P`, `_COLL` and `_RMA`. -/
inductive Owner where
  | p2p
  | coll
  | rma
  deriving DecidableEq

def Owner.bit : Owner → UInt32
  | .p2p => 0x01
  | .coll => 0x02
  | .rma => 0x04

/-- `ownerBitToIdx`; an owner is its own index. -/
def ownerBitToIdx (ownerBit : UInt32) : Option Owner :=
  if ownerBit = Owner.p2p.bit then some .p2p
  else if ownerBit = Owner.coll.bit then some .coll
  else if ownerBit = Owner.rma.bit then some .rma
  else none

structure MrP2pExt where
  mrId : UInt64
  hasIpc : Bool
  ipcHandleSize : UInt32
  ipcHandle : List UInt8
  deriving DecidableEq

structure MrCollExt where
  proxyConn : Nat
  channelId : Int
  deriving DecidableEq

structure MrRmaExt where
  oneSideHandleIdx : Int
  deriving DecidableEq

abbrev Ext : Owner → Type
  | .p2p => MrP2pExt
  | .coll => MrCollExt
  | .rma => MrRmaExt

/-- The extensions of an entry: its fields `p2p`, `coll` and `rma`. -/
abbrev Exts : Type := (owner : Owner) → Option (Ext owner)

/-- `flagcxMrEntry`. A handle is 0 for `NULL`. -/
structure MrEntry where
  baseAddr : Nat
  size : Nat
  ibDevN : Int
  ptrType : Int
  ownerMask : UInt32
  mhandles : Owner → Nat
  exts : Exts

structure MrIdEntry where
  mrId : UInt64
  baseAddr : Nat
  deriving DecidableEq

structure MrRegistry where
  entries : List MrEntry
  capacity : Nat
  nextId : UInt64
  idIndex : List MrIdEntry
  idCapacity : Nat

def flagcxMrRegistryCreate : MrRegistry := ⟨[], 0, 1, [], 0⟩

/-! ## The two arrays -/

/-- `bsearchExact`, with the entry at the place found. -/
def bsearchExact (entries : List MrEntry) (addr : Nat) : Option (Nat × MrEntry) :=
  (searchExact (entries.map (·.baseAddr)) addr).bind fun idx => entries[idx]?.map (idx, ·)

/-- `bsearchContaining`, with the entry at the place found. -/
def bsearchContaining (entries : List MrEntry) (addr : Nat) : Option MrEntry :=
  (searchContaining (entries.map (·.baseAddr)) addr).bind fun idx => entries[idx]?

def findInsertionPoint (entries : List MrEntry) (addr : Nat) : Nat := searchInsertion (entries.map (·.baseAddr)) addr

def grown (capacity : Nat) : Nat := if capacity = 0 then 16 else capacity * 2

/-- `ensureCapacity`; `memory` says whether `realloc` finds memory. -/
def ensureCapacity (reg : MrRegistry) (memory : Bool) : Option MrRegistry :=
  if reg.entries.length < reg.capacity then some reg
  else if memory then some { reg with capacity := grown reg.capacity } else none

def idIndexAppend (reg : MrRegistry) (mrId : UInt64) (baseAddr : Nat) (memory : Bool) : Except Result MrRegistry :=
  if (reg.idIndex.getLast?.any fun last => mrId ≤ last.mrId) then .error .internalError
  else if reg.idIndex.length < reg.idCapacity then .ok { reg with idIndex := reg.idIndex ++ [⟨mrId, baseAddr⟩] }
  else if memory then
    .ok { reg with idCapacity := grown reg.idCapacity, idIndex := reg.idIndex ++ [⟨mrId, baseAddr⟩] }
  else .error .systemError

def bsearchId (idIndex : List MrIdEntry) (mrId : UInt64) : Option Nat := searchExact (idIndex.map (·.mrId.toNat)) mrId.toNat

def idIndexRemove (reg : MrRegistry) (mrId : UInt64) : MrRegistry :=
  match bsearchId reg.idIndex mrId with
  | some mid => { reg with idIndex := reg.idIndex.eraseIdx mid }
  | none => reg

/-- `idIndexFindBaseAddr`; 0 when the id is not found. -/
def idIndexFindBaseAddr (reg : MrRegistry) (mrId : UInt64) : Nat :=
  ((bsearchId reg.idIndex mrId).bind fun mid => reg.idIndex[mid]?.map (·.baseAddr)).getD 0

/-! ## Register -/

/-- An owner bit that is accepted, with the extension that `ext` points to. -/
structure Request where
  owner : Owner
  ext : Option (Ext owner)

/-- The arguments of `flagcxMrRegistryRegister` but the registry, and whether there is memory. -/
structure RegisterArgs where
  addr : UInt64
  size : UInt64
  ibDevN : Int
  ptrType : Int
  /-- `ownerBit` and `ext`; no request for a bit that `ownerBitToIdx` does not know. -/
  request : Option Request
  mhandle : Nat
  /-- `outId` is not `NULL`. -/
  wantsId : Bool
  entriesMemory : Bool
  idsMemory : Bool

/-- What a call to register leaves: the result, what it writes to `outId`, and the ids it took from the counter. -/
structure Registered where
  result : Result
  outId : Option UInt64 := none
  drawn : List UInt64 := []
  deriving DecidableEq

def MrEntry.own (entry : MrEntry) (owner : Owner) (mhandle : Nat) : MrEntry :=
  { entry with ownerMask := entry.ownerMask ||| owner.bit, mhandles := update entry.mhandles owner mhandle }

def MrEntry.disown (entry : MrEntry) (owner : Owner) : MrEntry :=
  { entry with
    ownerMask := entry.ownerMask &&& ~~~owner.bit, mhandles := update entry.mhandles owner 0,
    exts := update entry.exts owner none }

def MrEntry.extend (entry : MrEntry) (owner : Owner) (ext : Ext owner) : MrEntry :=
  { entry with exts := update entry.exts owner (some ext) }

def MrEntry.OwnedBy (entry : MrEntry) (owner : Owner) : Prop := entry.ownerMask &&& owner.bit ≠ 0

instance (entry : MrEntry) (owner : Owner) : Decidable (entry.OwnedBy owner) := inferInstanceAs (Decidable (_ ≠ _))

def assignMrId (reg : MrRegistry) (ext : MrP2pExt) : MrP2pExt × MrRegistry × List UInt64 :=
  if ext.mrId = 0 then
    let drawn := reg.nextId
    let nextId := reg.nextId + 1
    ({ ext with mrId := drawn }, { reg with nextId := if drawn ≥ nextId then drawn + 1 else nextId }, [drawn])
  else (ext, { reg with nextId := if ext.mrId ≥ reg.nextId then ext.mrId + 1 else reg.nextId }, [])

/-- `*outId = reg->nextId++` when `outId` is not `NULL`. -/
def drawOutId (reg : MrRegistry) (wantsId : Bool) : MrRegistry × Registered :=
  if wantsId then ({ reg with nextId := reg.nextId + 1 }, ⟨.success, some reg.nextId, [reg.nextId]⟩) else (reg, ⟨.success, none, []⟩)

def replaceExt (entry : MrEntry) : (owner : Owner) → Ext owner → Option MrEntry
  | .p2p, (newP2p : MrP2pExt) =>
    let prevMrId : UInt64 := ((entry.exts .p2p).map MrP2pExt.mrId).getD 0
    if newP2p.mrId ≠ 0 ∧ prevMrId ≠ 0 ∧ newP2p.mrId ≠ prevMrId then none
    else some (entry.extend .p2p (if newP2p.mrId = 0 then { newP2p with mrId := prevMrId } else newP2p))
  | owner, ext => some (entry.extend owner ext)

def reregister (reg : MrRegistry) (idx : Nat) (existing : MrEntry) (c : RegisterArgs) (req : Request) : MrRegistry × Registered :=
  let entry :=
    if existing.mhandles req.owner ≠ c.mhandle ∧ c.mhandle ≠ 0 then
      { existing with mhandles := update existing.mhandles req.owner c.mhandle }
    else existing
  match req.ext.elim (some entry) (replaceExt entry req.owner) with
  | none => ({ reg with entries := reg.entries.set idx entry }, ⟨.internalError, none, []⟩)
  | some entry =>
    let outId : UInt64 := if req.owner = .p2p then ((entry.exts .p2p).map MrP2pExt.mrId).getD 0 else 0
    ({ reg with entries := reg.entries.set idx entry }, ⟨.success, if c.wantsId then some outId else none, []⟩)

def addOwner (reg : MrRegistry) (idx : Nat) (existing : MrEntry) (c : RegisterArgs) :
    (owner : Owner) → Ext owner → MrRegistry × Registered
  | .p2p, ext =>
    let entry := existing.own .p2p c.mhandle
    let (ext, reg, drawn) := assignMrId reg ext
    match idIndexAppend reg ext.mrId c.addr.toNat c.idsMemory with
    | .error result => ({ reg with entries := reg.entries.set idx (entry.disown .p2p) }, ⟨result, none, drawn⟩)
    | .ok reg =>
      ({ reg with entries := reg.entries.set idx (entry.extend .p2p ext) },
        ⟨.success, if c.wantsId then some ext.mrId else none, drawn⟩)
  | owner, ext =>
    let entry := (existing.own owner c.mhandle).extend owner ext
    drawOutId { reg with entries := reg.entries.set idx entry } c.wantsId

def registerExisting (reg : MrRegistry) (idx : Nat) (existing : MrEntry) (c : RegisterArgs) (req : Request) :
    MrRegistry × Registered :=
  if existing.size ≠ c.size.toNat then (reg, ⟨.internalError, none, []⟩)
  else if existing.ibDevN ≠ c.ibDevN ∨ existing.ptrType ≠ c.ptrType then (reg, ⟨.internalError, none, []⟩)
  else if existing.OwnedBy req.owner then reregister reg idx existing c req
  else match req.ext with
  | none => (reg, ⟨.internalError, none, []⟩)
  | some ext => addOwner reg idx existing c req.owner ext

def addrSub (a b : Nat) : Nat := (a + (2 ^ 64 - b)) % 2 ^ 64

def overlaps (entries : List MrEntry) (pos addr size : Nat) : Bool :=
  (0 < pos ∧ entries[pos - 1]?.any fun left => addrSub addr left.baseAddr < left.size) ∨
    entries[pos]?.any fun right => addrSub right.baseAddr addr < size

def newEntry (c : RegisterArgs) (owner : Owner) : MrEntry :=
  ⟨c.addr.toNat, c.size.toNat, c.ibDevN, c.ptrType, owner.bit, update (fun _ => 0) owner c.mhandle, fun _ => none⟩

def insertEntry (reg : MrRegistry) (pos : Nat) (c : RegisterArgs) : (owner : Owner) → Ext owner → MrRegistry × Registered
  | .p2p, ext =>
    let entry := newEntry c .p2p
    let (ext, reg, drawn) := assignMrId reg ext
    match idIndexAppend reg ext.mrId c.addr.toNat c.idsMemory with
    | .error result => ({ reg with entries := (reg.entries.insertIdx pos entry).eraseIdx pos }, ⟨result, none, drawn⟩)
    | .ok reg =>
      ({ reg with entries := reg.entries.insertIdx pos (entry.extend .p2p ext) },
        ⟨.success, if c.wantsId then some ext.mrId else none, drawn⟩)
  | owner, ext =>
    drawOutId { reg with entries := reg.entries.insertIdx pos ((newEntry c owner).extend owner ext) } c.wantsId

/-- No entry has the base address. -/
def registerNew (reg : MrRegistry) (c : RegisterArgs) (req : Request) : MrRegistry × Registered :=
  let pos := findInsertionPoint reg.entries c.addr.toNat
  if overlaps reg.entries pos c.addr.toNat c.size.toNat then (reg, ⟨.internalError, none, []⟩)
  else match req.ext with
  | none => (reg, ⟨.internalError, none, []⟩)
  | some ext =>
    match ensureCapacity reg c.entriesMemory with
    | none => (reg, ⟨.systemError, none, []⟩)
    | some reg => insertEntry reg pos c req.owner ext

def flagcxMrRegistryRegister (reg : MrRegistry) (c : RegisterArgs) : MrRegistry × Registered :=
  if c.size = 0 ∨ c.addr = 0 then (reg, ⟨.internalError, none, []⟩)
  else if (c.addr.toNat + c.size.toNat) % 2 ^ 64 < c.addr.toNat then (reg, ⟨.internalError, none, []⟩)
  else match c.request with
  | none => (reg, ⟨.internalError, none, []⟩)
  | some req =>
    match bsearchExact reg.entries c.addr.toNat with
    | some (idx, existing) => registerExisting reg idx existing c req
    | none => registerNew reg c req

/-! ## Deregister -/

def sanitizeOutEntry (entry : MrEntry) : MrEntry := { entry with exts := fun _ => none }

/-- What a call to deregister leaves: the result, `outEntry` and `outExt`. -/
structure Deregistered where
  result : Result
  outEntry : Option MrEntry := none
  outExt : Option (Sigma Ext) := none

def unlinkId (reg : MrRegistry) (entry : MrEntry) : Owner → MrRegistry
  | .p2p =>
    match entry.exts .p2p with
    | some ext => if MrP2pExt.mrId ext ≠ 0 then idIndexRemove reg (MrP2pExt.mrId ext) else reg
    | none => reg
  | _ => reg

def flagcxMrRegistryDeregister (reg : MrRegistry) (addr : UInt64) (ownerBit : UInt32) : MrRegistry × Deregistered :=
  match ownerBitToIdx ownerBit with
  | none => (reg, ⟨.internalError, none, none⟩)
  | some owner =>
    match bsearchExact reg.entries addr.toNat with
    | none => (reg, ⟨.internalError, none, none⟩)
    | some (idx, entry) =>
      if ¬ entry.OwnedBy owner then (reg, ⟨.internalError, none, none⟩)
      else
        let reg := unlinkId reg entry owner
        let out : Deregistered := ⟨.success, some (sanitizeOutEntry entry), (entry.exts owner).map (⟨owner, ·⟩)⟩
        let entry := entry.disown owner
        if entry.ownerMask = 0 then ({ reg with entries := reg.entries.eraseIdx idx }, out)
        else ({ reg with entries := reg.entries.set idx entry }, out)

/-! ## Lookup -/

/-- What a lookup copies out: the entry without its extensions, and the extensions. -/
structure Found where
  outEntry : MrEntry
  outExts : Exts

/-- `copyExtensions` and `sanitizeOutEntry`. -/
def MrEntry.found (entry : MrEntry) : Found := ⟨sanitizeOutEntry entry, entry.exts⟩

/-- `flagcxMrRegistryLookup`; nothing for `flagcxInternalError`. -/
def flagcxMrRegistryLookup (reg : MrRegistry) (addr : UInt64) : Option Found :=
  if reg.entries.length = 0 then none
  else match bsearchContaining reg.entries addr.toNat with
  | none => none
  | some entry =>
    if entry.baseAddr ≤ addr.toNat ∧ addrSub addr.toNat entry.baseAddr < entry.size then some entry.found else none

def flagcxMrRegistryFindExact (reg : MrRegistry) (addr : UInt64) : Option Found :=
  (bsearchExact reg.entries addr.toNat).map fun found => found.2.found

def flagcxMrRegistryLookupById (reg : MrRegistry) (mrId : UInt64) : Option Found :=
  let baseAddr := idIndexFindBaseAddr reg mrId
  if baseAddr = 0 then none
  else match bsearchExact reg.entries baseAddr with
  | none => none
  | some (_, entry) => if (entry.exts .p2p).isSome then some entry.found else none

/-! ## The global registry -/

/-- The global variables, and all ids taken from the counter since the process began. -/
structure Process where
  flagcxGlobalMrRegistry : Option MrRegistry
  gRegistryRefCount : Nat
  gRegistryNextId : UInt64
  drawn : List UInt64

def Process.start : Process := ⟨none, 0, 1, []⟩

/-- `flagcxMrRegistryGlobalInit`; `memory` says whether a registry can be created. -/
def flagcxMrRegistryGlobalInit (p : Process) (memory : Bool) : Process :=
  if p.gRegistryRefCount = 0 then
    if memory then
      { p with
        flagcxGlobalMrRegistry := some { flagcxMrRegistryCreate with nextId := p.gRegistryNextId },
        gRegistryRefCount := p.gRegistryRefCount + 1 }
    else p
  else { p with gRegistryRefCount := p.gRegistryRefCount + 1 }

def flagcxMrRegistryGlobalRelease (p : Process) : Process :=
  if p.gRegistryRefCount ≤ 0 then p
  else if p.gRegistryRefCount - 1 = 0 then
    { p with
      flagcxGlobalMrRegistry := none, gRegistryRefCount := 0,
      gRegistryNextId := (p.flagcxGlobalMrRegistry.map (·.nextId)).getD p.gRegistryNextId }
  else { p with gRegistryRefCount := p.gRegistryRefCount - 1 }

/-- The calls that change the process. -/
inductive Call where
  | globalInit (memory : Bool)
  | globalRelease
  | register (c : RegisterArgs)
  | deregister (addr : UInt64) (ownerBit : UInt32)

def Process.step (p : Process) : Call → Option Process
  | .globalInit memory => some (flagcxMrRegistryGlobalInit p memory)
  | .globalRelease => some (flagcxMrRegistryGlobalRelease p)
  | .register c =>
    match p.flagcxGlobalMrRegistry with
    | none => some p
    | some reg =>
      let (reg, out) := flagcxMrRegistryRegister reg c
      some { p with flagcxGlobalMrRegistry := some reg, drawn := p.drawn ++ out.drawn }
  | .deregister addr ownerBit =>
    match p.flagcxGlobalMrRegistry with
    | none => some p
    | some reg => some { p with flagcxGlobalMrRegistry := some (flagcxMrRegistryDeregister reg addr ownerBit).1 }

end FlagCX.MemReg
