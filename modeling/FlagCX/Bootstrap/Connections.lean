import FlagCX.Lib.Network
import FlagCX.Result
import Mathlib.Data.List.Basic
import Mathlib.Data.List.Sublists
import Mathlib.Tactic.SplitIfs

/-!
# Messages of the bootstrap (`bootstrapCollSendInternal`, `bootstrapCollRecvInternal`)

Every message of a rank has a connection of its own: the sender connects to the listening socket of the peer and writes its
rank, the tag and the data. The receiver accepts connections until it meets the one that it waits for, and parks the others in
the list of unexpected connections, which it searches first.

* `World.step` : one step of a rank. Between two of its steps the others take any number of theirs.
* `World.places` : the connections to a rank, in the order in which the rank meets them.

The sockets of the ring are connected once, and are channels from the start. Failures of the sockets are left out.
-/

namespace FlagCX.Bootstrap
open Lib Function

/-! ## Connections -/

/-- What a message is addressed by: the sockets of the ring, or a connection with a tag. -/
inductive Port where
  | ring
  | tag (t : Int)
  deriving DecidableEq, Repr

/-- A rank that runs a function of the bootstrap, with messages `μ` and records `ν`. -/
abbrev Coll (μ ν α : Type) := Proc Nat Port μ ν Result α

/-- How much the sender has written: nothing, its rank and the tag, or the data too. -/
inductive Stage where
  | opened
  | named
  | sent
  deriving DecidableEq, Repr

structure Conn (μ : Type) where
  src : Nat
  dst : Nat
  tag : Int
  msg : μ

/-- `unexConn`. A socket is the number of its connection. -/
structure UnexConn where
  peer : Nat
  tag : Int
  sock : Nat
  deriving DecidableEq

/-- Where a rank is in its call: at the beginning, connected in `bootstrapCollSendInternal`, before or after
`flagcxSocketAccept` in `bootstrapCollAccept`, or in `bootstrapCollRecvInternal` with the connection of the message. -/
inductive Phase where
  | idle
  | sending (sock : Nat)
  | accepting
  | accepted (sock : Nat)
  | receiving (sock : Nat)
  deriving DecidableEq

/-- The ranks and their sockets. The `listenSock` of a rank holds the connections that were made and not accepted, in the order
in which they were made; `closed` are those it has received from. -/
structure World (μ ν α : Type) where
  procs : Nat → Coll μ ν α
  phase : Nat → Phase
  conns : List (Conn μ)
  stage : Nat → Stage
  listenSock : Nat → List Nat
  unexpectedConnections : Nat → List UnexConn
  rings : Nat × Nat → List μ
  notes : Nat → List ν
  closed : Nat → List Nat

def unexpectedEnqueue (list : List UnexConn) (peer : Nat) (tag : Int) (sock : Nat) : List UnexConn :=
  list ++ [⟨peer, tag, sock⟩]

/-- `unexpectedDequeue`: the socket, when one is found, and the list without it. -/
def unexpectedDequeue : List UnexConn → Nat → Int → Option (Nat × List UnexConn)
  | [], _, _ => none
  | elem :: next, peer, tag =>
    if elem.peer = peer ∧ elem.tag = tag then some (elem.sock, next)
    else (unexpectedDequeue next peer tag).map fun (sock, list) => (sock, elem :: list)

/-- The connections that a rank in a phase has to do with: the one it receives from, those parked, the one it has accepted, and
those that wait. -/
def held (phase : Phase) (unexpectedConnections : List UnexConn) (listenSock : List Nat) : List Nat :=
  (match phase with | .receiving sock => [sock] | _ => []) ++ unexpectedConnections.map UnexConn.sock ++
    (match phase with | .accepted sock => [sock] | _ => []) ++ listenSock

namespace World
variable {μ ν α : Type} (w : World μ ν α)

def peerOf (sock : Nat) : Option Nat := w.conns[sock]?.map Conn.src

/-- Let a rank go on with `next`. -/
def resume (r : Nat) (next : Coll μ ν α) : World μ ν α :=
  { w with procs := update w.procs r next, phase := update w.phase r .idle }

/-- A rank begins the next call, or takes a step that involves no connection. -/
def call (r : Nat) : Option (World μ ν α) :=
  match w.procs r with
  | .done _ => none
  | .stop _ => none
  | .note v next => some { w with procs := update w.procs r next, notes := update w.notes r (w.notes r ++ [v]) }
  | .send dst .ring m next =>
    some { w with procs := update w.procs r next, rings := update w.rings (r, dst) (w.rings (r, dst) ++ [m]) }
  | .recv src .ring next =>
    match w.rings (src, r) with
    | [] => none
    | m :: rest => some { w with procs := update w.procs r (next m), rings := update w.rings (src, r) rest }
  | .send dst (.tag t) m _ =>
    some { w with
      phase := update w.phase r (.sending w.conns.length), conns := w.conns ++ [⟨r, dst, t, m⟩],
      listenSock := update w.listenSock dst (w.listenSock dst ++ [w.conns.length]) }
  | .recv src (.tag t) _ =>
    match unexpectedDequeue (w.unexpectedConnections r) src t with
    | some (sock, rest) =>
      some { w with
        phase := update w.phase r (.receiving sock),
        unexpectedConnections := update w.unexpectedConnections r rest }
    | none => some { w with phase := update w.phase r .accepting }

/-- The sender writes its rank and the tag (`bootstrapCollConnect`), then the data, and returns. -/
def write (r sock : Nat) : Option (World μ ν α) :=
  match w.stage sock, w.procs r with
  | .opened, _ => some { w with stage := update w.stage sock .named }
  | .named, .send _ _ _ next => some ({ w with stage := update w.stage sock .sent }.resume r next)
  | _, _ => none

def accept (r choice : Nat) : Option (World μ ν α) :=
  match (w.listenSock r)[choice]? with
  | none => none
  | some sock =>
    if ((w.listenSock r).take choice).all (fun sock' => w.peerOf sock' ≠ w.peerOf sock) then
      some { w with
        phase := update w.phase r (.accepted sock),
        listenSock := update w.listenSock r ((w.listenSock r).eraseIdx choice) }
    else none

/-- The receiver reads the rank and the tag of an accepted connection, and parks it if they are not those it waits for. -/
def identify (r sock : Nat) : Option (World μ ν α) :=
  match w.conns[sock]?, w.procs r with
  | some c, .recv peer (.tag tag) _ =>
    if w.stage sock = .opened then none
    else if c.src = peer ∧ c.tag = tag then some { w with phase := update w.phase r (.receiving sock) }
    else some { w with
      phase := update w.phase r .accepting,
      unexpectedConnections :=
        update w.unexpectedConnections r (unexpectedEnqueue (w.unexpectedConnections r) c.src c.tag sock) }
  | _, _ => none

/-- The receiver reads the data, closes the connection and returns. -/
def read (r sock : Nat) : Option (World μ ν α) :=
  match w.conns[sock]?, w.procs r with
  | some c, .recv _ _ next =>
    if w.stage sock = .sent then some ({ w with closed := update w.closed r (w.closed r ++ [sock]) }.resume r (next c.msg))
    else none
  | _, _ => none

/-- One step of the rank `a.1`; where it accepts a connection, of the one at `a.2`. -/
def step (a : Nat × Nat) : Option (World μ ν α) :=
  match w.phase a.1 with
  | .idle => w.call a.1
  | .sending sock => w.write a.1 sock
  | .accepting => w.accept a.1 a.2
  | .accepted sock => w.identify a.1 sock
  | .receiving sock => w.read a.1 sock

/-- The ranks before anything is sent. -/
def start (procs : Nat → Coll μ ν α) : World μ ν α where
  procs := procs
  phase _ := .idle
  conns := []
  stage _ := .opened
  listenSock _ := []
  unexpectedConnections _ := []
  rings _ := []
  notes _ := []
  closed _ := []

/-! ## Where the connections are -/

/-- The message of a connection, if it goes from `p` to `r` with the tag `t`. -/
def carries (p r : Nat) (t : Int) (sock : Nat) : Option μ :=
  match w.conns[sock]? with
  | some c => if c.src = p ∧ c.dst = r ∧ c.tag = t then some c.msg else none
  | none => none

/-- The connections to a rank that it has not received from, in the order in which a receiver meets them. -/
def pending (r : Nat) : List Nat := held (w.phase r) (w.unexpectedConnections r) (w.listenSock r)

/-- All connections to a rank. -/
def places (r : Nat) : List Nat := w.closed r ++ w.pending r

/-- The messages that were sent from `p` to `r` with the tag `t`, in this order. -/
def sent (p r : Nat) (t : Int) : List μ := (List.range w.conns.length).filterMap (w.carries p r t)

/-- The messages from `p` with the tag `t` that the calls of `r` have returned, in this order. -/
def received (p r : Nat) (t : Int) : List μ := (w.closed r).filterMap (w.carries p r t)

end World

/-! ## The invariant -/

section Invariant
variable {μ ν α : Type} {w w' : World μ ν α} {r : Nat}

/-- What holds of a rank: its connections are in order, and its phase goes with its call. -/
structure RankInv (w : World μ ν α) (r : Nat) : Prop where
  home : ∀ sock ∈ w.places r, ∃ c, w.conns[sock]? = some c ∧ c.dst = r
  order : ∀ p t, (List.range w.conns.length).filter (fun sock => (w.carries p r t sock).isSome) =
    (w.places r).filter (fun sock => (w.carries p r t sock).isSome)
  parked : ∀ u ∈ w.unexpectedConnections r, ∃ c, w.conns[u.sock]? = some c ∧ c.src = u.peer ∧ c.tag = u.tag
  waiting : (w.phase r = .accepting ∨ ∃ sock, w.phase r = .accepted sock) → ∃ src t next,
    w.procs r = .recv src (.tag t) next ∧ ∀ u ∈ w.unexpectedConnections r, ¬ (u.peer = src ∧ u.tag = t)
  reading : ∀ sock, w.phase r = .receiving sock → ∃ c next, w.conns[sock]? = some c ∧
    w.procs r = .recv c.src (.tag c.tag) next
  writing : ∀ sock, w.phase r = .sending sock → ∃ c next, w.conns[sock]? = some c ∧ c.src = r ∧
    w.procs r = .send c.dst (.tag c.tag) c.msg next ∧ w.stage sock ≠ .sent

/-- What holds of all ranks. A connection that is not written out is one its sender is at. -/
structure Inv (w : World μ ν α) : Prop where
  rank : ∀ r, RankInv w r
  written : ∀ (sock : Nat) c, w.conns[sock]? = some c → w.stage sock = .sent ∨ w.phase c.src = .sending sock
  fresh : ∀ sock, w.conns.length ≤ sock → w.stage sock = .opened

theorem Inv.start (procs : Nat → Coll μ ν α) : Inv (World.start procs) where
  rank r :=
    { home := fun sock h => by cases h
      order := fun p t => rfl
      parked := fun u h => by cases h
      waiting := fun h => by
        rcases h with h | ⟨sock, h⟩
        · cases h
        · cases h
      reading := fun sock h => by cases h
      writing := fun sock h => by cases h }
  written sock c h := by
    cases h
  fresh sock h := rfl

theorem carries_congr (hconns : w'.conns = w.conns) (p r : Nat) (t : Int) : w'.carries p r t = w.carries p r t := by
  funext sock
  rw [World.carries, World.carries, hconns]

theorem RankInv.congr (h : RankInv w r) (hconns : w'.conns = w.conns) (hprocs : w'.procs r = w.procs r)
    (hphase : w'.phase r = w.phase r) (hunex : w'.unexpectedConnections r = w.unexpectedConnections r)
    (hlisten : w'.listenSock r = w.listenSock r) (hclosed : w'.closed r = w.closed r)
    (hstage : ∀ sock, w.phase r = .sending sock → w'.stage sock ≠ .sent) : RankInv w' r := by
  have hplaces : w'.places r = w.places r := by
    rw [World.places, World.places, World.pending, World.pending, hphase, hunex, hlisten, hclosed]
  constructor
  · rw [hplaces, hconns]
    exact h.home
  · intro p t
    rw [carries_congr hconns, hplaces, hconns]
    exact h.order p t
  · rw [hunex, hconns]
    exact h.parked
  · rw [hphase, hunex, hprocs]
    exact h.waiting
  · rw [hphase, hprocs, hconns]
    exact h.reading
  · rw [hphase, hprocs, hconns]
    intro sock hsock
    obtain ⟨c, next, hc, hsrc, hnext, -⟩ := h.writing sock hsock
    exact ⟨c, next, hc, hsrc, hnext, hstage sock hsock⟩

end Invariant

end FlagCX.Bootstrap
