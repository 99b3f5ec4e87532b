import FlagCX.Lib.Pages
import FlagCX.Result

/-!
# The registration pool (`reg_pool.cc`)

Buffers are registered by whole pages. A buffer that meets a page of an item is merged into the item, which grows; an item counts
the buffers it stands for. The global map and a map for each communicator lead from pages to items.

* `RegItem`, `RegPool`   : the items, at the addresses that serve as handles, and the maps.
* `registerBuffer`       : `growBackward`, `growForward` for an item that is there already.

A function that would read an item that was freed has no result. What an item holds for the network and for peers is left out: the
answers of releasing it are arguments of `deregisterBuffer`.
-/

namespace FlagCX.Reg
open Lib Function

structure RegItem where
  beginAddr : Nat
  endAddr : Nat
  refCount : Int
  deriving DecidableEq

structure RegPool where
  pageSize : Nat
  /-- `regMap`: for a communicator (0 is `GLOBAL_POOL_KEY`) the items by their pages. -/
  regMap : Nat → Nat → Option Nat
  /-- `regPool[GLOBAL_POOL_KEY]`: the items by their first pages. -/
  regPool : Nat → Option Nat
  /-- The items that were allocated and not freed, by their addresses. -/
  items : Nat → Option RegItem
  /-- The address that the next allocation returns. -/
  fresh : Nat

def RegPool.start (pageSize : Nat) : RegPool := ⟨pageSize, fun _ _ => none, fun _ => none, fun _ => none, 0⟩

/-- The key of a communicator, `nullptr` for none: 0. -/
abbrev GLOBAL_POOL_KEY : Nat := 0

namespace RegPool
variable (p : RegPool)

def getPagedAddr (data length : Nat) : Nat × Nat := (pageOf p.pageSize data, pageUp p.pageSize (data + length))

def mapPages (commKey handle beginAddr endAddr : Nat) : RegPool :=
  { p with regMap := update p.regMap commKey (updateAll (p.regMap commKey) (pages p.pageSize beginAddr endAddr) (some handle)) }

def mapRegItemPages (commKey handle : Nat) (reg : RegItem) : RegPool := p.mapPages commKey handle reg.beginAddr reg.endAddr

def store (handle : Nat) (reg : RegItem) : RegPool := { p with items := update p.items handle (some reg) }

def growBackward (handle : Nat) (reg : RegItem) (beginAddr : Nat) : RegPool × RegItem × Result :=
  if beginAddr < reg.beginAddr then
    let oldBegin := reg.beginAddr
    let reg := { reg with beginAddr := beginAddr }
    let p := (p.store handle reg).mapPages GLOBAL_POOL_KEY handle beginAddr oldBegin
    match p.regPool oldBegin with
    | none => (p, reg, .internalError)
    | some node =>
      let p := { p with regPool := update p.regPool oldBegin none }
      -- the item of a key that is taken already goes with the pointer that owned it
      if (p.regPool beginAddr).isSome then ({ p with items := update p.items node none }, reg, .internalError)
      else ({ p with regPool := update p.regPool beginAddr (some node) }, reg, .success)
  else (p, reg, .success)

def growForward (handle : Nat) (reg : RegItem) (endAddr : Nat) : RegPool × RegItem :=
  if reg.endAddr < endAddr then
    let oldEnd := reg.endAddr
    let reg := { reg with endAddr := endAddr }
    ((p.store handle reg).mapPages GLOBAL_POOL_KEY handle oldEnd endAddr, reg)
  else (p, reg)

def registerExisting (comm existing : Nat) (reg : RegItem) (beginAddr endAddr : Nat) : RegPool × Result :=
  let reg := { reg with refCount := reg.refCount + 1 }
  let (p, reg, result) := (p.store existing reg).growBackward existing reg beginAddr
  if result ≠ .success then (p, result)
  else
    let (p, reg) := p.growForward existing reg endAddr
    (if comm ≠ GLOBAL_POOL_KEY then p.mapRegItemPages comm existing reg else p, .success)

/-- `globalPool.emplace` of a new item: a key that is there already keeps its item. -/
def emplace (beginAddr endAddr : Nat) : RegPool × Nat :=
  match p.regPool beginAddr with
  | some handle => (p, handle)
  | none =>
    ({ p with
        regPool := update p.regPool beginAddr (some p.fresh), items := update p.items p.fresh (some ⟨beginAddr, endAddr, 1⟩),
        fresh := p.fresh + 1 }, p.fresh)

/-- No page of the buffer belongs to an item. -/
def registerNew (comm beginAddr endAddr : Nat) : Option (RegPool × Result) :=
  let (p, regPtr) := p.emplace beginAddr endAddr
  match p.items regPtr with
  | none => none
  | some reg =>
    let p := p.mapRegItemPages GLOBAL_POOL_KEY regPtr reg
    some (if comm ≠ GLOBAL_POOL_KEY then p.mapRegItemPages comm regPtr reg else p, .success)

def registerBuffer (comm data length : Nat) : Option (RegPool × Result) :=
  if data = 0 ∨ length = 0 then some (p, .success)
  else
    let (beginAddr, endAddr) := p.getPagedAddr data length
    match (pages p.pageSize beginAddr endAddr).findSome? (p.regMap GLOBAL_POOL_KEY) with
    | some existing => (p.items existing).map fun reg => p.registerExisting comm existing reg beginAddr endAddr
    | none => p.registerNew comm beginAddr endAddr

def erasePages (commKey : Nat) (reg : RegItem) : RegPool :=
  { p with regMap := update p.regMap commKey (updateAll (p.regMap commKey) (pages p.pageSize reg.beginAddr reg.endAddr) none) }

/-- Take the pages that lead to the item from all maps. -/
def eraseItem (handle : Nat) (reg : RegItem) : RegPool :=
  { p with
    regMap := fun commKey page =>
      if page ∈ pages p.pageSize reg.beginAddr reg.endAddr ∧ p.regMap commKey page = some handle then none
      else p.regMap commKey page,
    regPool := update p.regPool reg.beginAddr none, items := update p.items handle none }

/-- `deregisterBuffer`; `netHandles` and `p2pHandles` are what `removeRegItemNetHandles` and `removeRegItemP2pHandles` return. -/
def deregisterBuffer (comm handle : Nat) (netHandles p2pHandles : Result) : Option (RegPool × Result) :=
  (p.items handle).map fun reg =>
    if p.regPool reg.beginAddr ≠ some handle then (p, .invalidUsage)
    else
      let reg := { reg with refCount := reg.refCount - 1 }
      let p := p.store handle reg
      let p := if comm ≠ GLOBAL_POOL_KEY then p.erasePages comm reg else p
      if 0 < reg.refCount then (p, .success)
      else if ¬ netHandles.accepted then (p, netHandles)
      else if ¬ p2pHandles.accepted then (p, p2pHandles)
      else (p.eraseItem handle reg, .success)

def getItem (comm data : Nat) : Option Nat :=
  let beginAddr := (p.getPagedAddr data 0).1
  if comm ≠ GLOBAL_POOL_KEY then (p.regMap comm beginAddr).or (p.regMap GLOBAL_POOL_KEY beginAddr)
  else p.regMap GLOBAL_POOL_KEY beginAddr

end RegPool

/-! ## The users -/

/-- A buffer that was registered, with the handle that `getItem` returned for it. -/
structure Registration where
  comm : Nat
  data : Nat
  length : Nat
  handle : Option Nat
  deriving DecidableEq

/-- The pool and the buffers that are registered and not yet deregistered. -/
structure World where
  pool : RegPool
  registered : List Registration

def World.start (pageSize : Nat) : World := ⟨.start pageSize, []⟩

/-- The calls. `deregister` is for a registered buffer, or a call for an item that has none left. -/
inductive Call where
  | register (comm : Nat) (data length : UInt64)
  | deregister (comm handle : Nat) (buffer : Option Registration) (netHandles p2pHandles : Result)

/-- The handle belongs to the buffer; without a buffer it belongs to none. -/
def World.Holds (w : World) (handle : Nat) : Option Registration → Prop
  | some buffer => buffer ∈ w.registered ∧ buffer.handle = some handle
  | none => ∀ buffer ∈ w.registered, buffer.handle ≠ some handle

instance (w : World) (handle : Nat) : (buffer : Option Registration) → Decidable (w.Holds handle buffer)
  | some buffer => inferInstanceAs (Decidable (buffer ∈ w.registered ∧ buffer.handle = some handle))
  | none => inferInstanceAs (Decidable (∀ buffer ∈ w.registered, buffer.handle ≠ some handle))

/-- One call; none for a handle that was freed or belongs to other buffers. -/
def World.step (w : World) : Call → Option World
  | .register comm data length =>
    (w.pool.registerBuffer comm data.toNat length.toNat).map fun (pool, result) =>
      if data.toNat = 0 ∨ length.toNat = 0 ∨ result ≠ .success then { w with pool := pool }
      else
        { pool := pool
          registered := ⟨comm, data.toNat, length.toNat, pool.getItem comm data.toNat⟩ :: w.registered }
  | .deregister comm handle buffer netHandles p2pHandles =>
    if w.Holds handle buffer then
      (w.pool.deregisterBuffer comm handle netHandles p2pHandles).map fun (pool, _) =>
        { pool := pool, registered := buffer.elim w.registered w.registered.erase }
    else none

end FlagCX.Reg
