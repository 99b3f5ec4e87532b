import FlagCX.Lib.Guarded

/-!
# The notification socket of the P2P engine (`flagcx_p2p_shared.cc`)

The frames that `flagcxP2pEngineSendNotif` and `refreshRemoteRange` write to one connection, the byte stream, and the poll
thread of the receiving engine.

* `Frame`, `encode`, `notifParseMessages` : the frames and the parser; `parse_spec` : how it splits a front of a stream.
* `Conn`, `Conn.step` : a connection with both of its ends. One `recv` of `notifHandleRead` is one step.
* `Sound`             : what was handled and what a connection that was dropped has left.
* `notifs_delivered`  : in every run in which no event with an error or hang-up bit meets a complete frame that is unread.
-/

namespace FlagCX.Notif
open Lib List Option

/-! ## Frames -/

/-- `FLAGCX_P2P_NOTIF_MAGIC` and `FLAGCX_P2P_MR_QUERY_MAGIC`. -/
inductive Kind where
  | notif
  | query
  deriving DecidableEq, Repr

def Kind.magic : Kind → List UInt8
  | .notif => [0xAD, 0xDE, 0xAD, 0xDE]
  | .query => [0x51, 0x4D, 0x58, 0x46]

/-- `sizeof(FlagcxP2pNotifWireMsg)` and `sizeof(FlagcxP2pMrQueryWire)`. -/
def Kind.size : Kind → Nat
  | .notif => 520
  | .query => 32

def kindOf (magic : List UInt8) : Option Kind :=
  if magic = Kind.notif.magic then some .notif else if magic = Kind.query.magic then some .query else none

/-- A frame without its magic number. -/
structure Frame where
  kind : Kind
  body : List UInt8
  length_body : body.length + 4 = kind.size

def Frame.isNotif (f : Frame) : Bool := f.kind = .notif

def encode (f : Frame) : List UInt8 := f.kind.magic ++ f.body

def encodeAll (fs : List Frame) : List UInt8 := fs.flatMap encode

/-- `notifParseMessages`: the frames, the bytes that stay in `inBuf`, and whether every magic number was known. Every round
but the last takes bytes out of `inBuf`, so that its length bounds the rounds. -/
def parseMessages : Nat → List UInt8 → List Frame × List UInt8 × Bool
  | 0, buf => ([], buf, true)
  | n + 1, buf =>
    if buf.length < 4 then ([], buf, true)
    else
      match kindOf (buf.take 4) with
      | none => ([], buf, false)
      | some k =>
        if h : buf.length < k.size then ([], buf, true)
        else
          let rest := parseMessages n (buf.drop k.size)
          (⟨k, (buf.take k.size).drop 4, by cases k <;> simp [Kind.size] at h ⊢ <;> omega⟩ :: rest.1, rest.2)

def notifParseMessages (buf : List UInt8) : List Frame × List UInt8 × Bool := parseMessages buf.length buf

/-! ## A connection -/

/-- A connection. `wire` has not arrived, `arrived` is in the socket of the engine; `live` while it is in `notifPeers`,
`reading` inside `notifHandleRead`. `sent` are the frames sent, `cut` what a failed send has written, `left` what was not
handled. -/
structure Conn where
  wire : List UInt8
  arrived : List UInt8
  inBuf : List UInt8
  live : Bool
  reading : Bool
  queued : List Frame
  answered : List Frame
  sent : List Frame
  cut : List UInt8
  closed : Bool
  failed : Bool
  left : List UInt8

def Conn.init : Conn := ⟨[], [], [], true, false, [], [], [], [], false, false, []⟩

/-- `notifRemoveConnLocked` -/
def Conn.remove (c : Conn) : Conn := { c with live := false, reading := false, left := c.inBuf ++ c.arrived }

/-- What happens next: the sender writes a frame, or a part of it and closes, or closes; bytes arrive; the poll thread gets
an event with these bits, or takes a step of its read loop. -/
inductive Act where
  | send (f : Frame)
  | sendPart (f : Frame) (n : Nat)
  | close
  | arrive (n : Nat)
  | event (err rdhup : Bool)
  | recv (n : Nat)
  | again
  | eof
  | recvError

/-- A step. `EPOLLRDHUP` is reported when the end of the stream has arrived, and `recv` returns at most 4096 bytes. -/
def Conn.step (c : Conn) : Act → Option Conn
  | .send f => if c.closed then none else some { c with wire := c.wire ++ encode f, sent := c.sent ++ [f] }
  | .sendPart f n =>
    if c.closed = false ∧ n < (encode f).length then
      some { c with wire := c.wire ++ (encode f).take n, cut := (encode f).take n, closed := true }
    else none
  | .close => some { c with closed := true }
  | .arrive n => some { c with arrived := c.arrived ++ c.wire.take n, wire := c.wire.drop n }
  | .event err rdhup =>
    if c.live = false ∨ c.reading ∨ rdhup ∧ ¬ (c.closed ∧ c.wire = []) then none
    else if err ∨ rdhup then some { c.remove with failed := c.failed || err }
    else some { c with reading := true }
  | .recv n =>
    if c.reading ∧ 0 < n ∧ n ≤ 4096 ∧ n ≤ c.arrived.length then
      let out := notifParseMessages (c.inBuf ++ c.arrived.take n)
      let c := { c with
        arrived := c.arrived.drop n
        inBuf := out.2.1
        queued := c.queued ++ out.1.filter Frame.isNotif
        answered := c.answered ++ out.1.filter fun f => !f.isNotif }
      some (if out.2.2 then c else c.remove)
    else none
  | .again => if c.reading ∧ c.arrived = [] then some { c with reading := false } else none
  | .eof => if c.reading ∧ c.closed ∧ c.wire = [] ∧ c.arrived = [] then some c.remove else none
  | .recvError => if c.reading then some { c.remove with failed := true } else none

/-- The notifications are queued and the queries answered once each and in order, and all of them when the connection was
dropped without an error of the socket; no complete frame is left then. -/
structure Sound (c : Conn) : Prop where
  handled : ∃ done rest, c.sent = done ++ rest ∧ c.queued = done.filter Frame.isNotif ∧
    (c.answered = done.filter fun f => !f.isNotif) ∧ (c.live = false → c.failed = false → rest = [])
  dropped : c.live = false → c.closed ∨ c.failed
  complete : c.live = false → (notifParseMessages c.left).1 = []

/-- No event with an error or hang-up bit, and no failing `recv`, meets a complete frame that is unread. -/
def Act.Drained (c : Conn) : Act → Prop
  | .event err rdhup => err ∨ rdhup → (notifParseMessages (c.inBuf ++ c.arrived)).1 = []
  | .recvError => (notifParseMessages (c.inBuf ++ c.arrived)).1 = []
  | _ => True

/-! ## Parsing -/

section Parse
variable {f : Frame} {buf more cut : List UInt8} {rest : List Frame}

@[simp] theorem length_encode (f : Frame) : (encode f).length = f.kind.size := by
  have h := f.length_body
  have hmagic : f.kind.magic.length = 4 := by cases f.kind <;> rfl
  rw [encode, length_append]
  omega

theorem take_encode (f : Frame) (buf : List UInt8) : (encode f ++ buf).take 4 = f.kind.magic := by
  cases hk : f.kind <;> simp [encode, hk, Kind.magic]

@[simp] theorem kindOf_magic (k : Kind) : kindOf k.magic = some k := by cases k <;> rfl

theorem parse_short (h : buf <+: encode f) (hlt : buf.length < f.kind.size) (n : Nat) :
    parseMessages n buf = ([], buf, true) := by
  cases n with
  | zero => rfl
  | succ n =>
    rw [parseMessages]
    split_ifs with hfour
    · rfl
    · obtain ⟨t, ht⟩ := h
      have hmagic : buf.take 4 = f.kind.magic := by
        rw [← take_encode f [], append_nil, ← ht, take_append_of_le_length (by omega)]
      simp [hmagic, hlt]

theorem parse_cons (n : Nat) (f : Frame) (buf : List UInt8) :
    parseMessages (n + 1) (encode f ++ buf) = (f :: (parseMessages n buf).1, (parseMessages n buf).2) := by
  have hlength := length_encode f
  have hsize : 4 ≤ f.kind.size := by have := f.length_body; omega
  have hdrop : (encode f ++ buf).drop f.kind.size = buf := drop_left' hlength
  have htake : (encode f ++ buf).take f.kind.size = encode f := take_left' hlength
  have hbody : (encode f).drop 4 = f.body := by cases hk : f.kind <;> simp [encode, hk, Kind.magic]
  rw [parseMessages, if_neg (by simp; omega), take_encode, kindOf_magic]
  simp only [hdrop, htake, hbody]
  rw [dif_neg (by simp)]

/-- A front of a frame that is never completed. -/
def IsCut (cut : List UInt8) : Prop := ∃ f, cut <+: encode f ∧ cut.length < f.kind.size

theorem parse_spec (hcut : IsCut cut) (n : Nat) (hn : buf.length ≤ n) (h : buf ++ more = encodeAll rest ++ cut) :
    ∃ rest', rest = (parseMessages n buf).1 ++ rest' ∧ (parseMessages n buf).2.1 ++ more = encodeAll rest' ++ cut ∧
      (parseMessages n buf).2.2 = true ∧ (notifParseMessages (parseMessages n buf).2.1).1 = [] := by
  have stop : ∀ {g : Frame} {n : Nat} {buf : List UInt8} {rest : List Frame}, buf <+: encode g → buf.length < g.kind.size →
      buf ++ more = encodeAll rest ++ cut → ∃ rest', rest = (parseMessages n buf).1 ++ rest' ∧
        (parseMessages n buf).2.1 ++ more = encodeAll rest' ++ cut ∧ (parseMessages n buf).2.2 = true ∧
        (notifParseMessages (parseMessages n buf).2.1).1 = [] := by
    intro g n buf rest hg hlt h
    rw [parse_short hg hlt]
    refine ⟨rest, rfl, h, rfl, ?_⟩
    rw [notifParseMessages, parse_short hg hlt]
  induction n generalizing buf rest with
  | zero =>
    obtain rfl := length_eq_zero_iff.1 (Nat.le_zero.1 hn)
    exact ⟨rest, rfl, h, rfl, rfl⟩
  | succ n ih =>
    cases rest with
    | nil =>
      obtain ⟨g, hg, hlt⟩ := hcut
      have hfront : buf <+: cut := ⟨more, h⟩
      exact stop (hfront.trans hg) (Nat.lt_of_le_of_lt hfront.length_le hlt) h
    | cons g rest =>
      have hall : buf ++ more = encode g ++ (encodeAll rest ++ cut) := by
        rw [h, encodeAll, flatMap_cons, append_assoc]
        rfl
      by_cases hlt : buf.length < g.kind.size
      · have hfront : buf <+: encode g := by
          refine prefix_of_prefix_length_le ⟨more, hall⟩ (prefix_append _ _) ?_
          rw [length_encode]
          omega
        exact stop hfront hlt h
      · obtain ⟨buf', rfl⟩ : encode g <+: buf := by
          refine prefix_of_prefix_length_le (prefix_append _ _) (hall ▸ prefix_append _ _) ?_
          rw [length_encode]
          omega
        rw [append_assoc] at hall
        have hsize : 4 ≤ g.kind.size := by have := g.length_body; omega
        rw [length_append, length_encode] at hn
        obtain ⟨rest', hrest, htail⟩ := ih (by omega) (append_cancel_left hall)
        rw [parse_cons]
        exact ⟨rest', by rw [hrest]; rfl, htail⟩

theorem rest_eq_nil (h : buf = encodeAll rest ++ cut) (hnone : (notifParseMessages buf).1 = []) : rest = [] := by
  cases rest with
  | nil => rfl
  | cons g rest =>
    have hall : buf = encode g ++ (encodeAll rest ++ cut) := by
      rw [h, encodeAll, flatMap_cons, append_assoc]
      rfl
    have hlength : buf.length = (encode g ++ (encodeAll rest ++ cut)).length - 1 + 1 := by
      have := g.length_body
      rw [hall, length_append, length_encode]
      omega
    rw [notifParseMessages, hlength, hall, parse_cons] at hnone
    cases hnone

end Parse

/-! ## Every run -/

/-- What was handled so far, and that the rest of the stream is the rest of the frames. -/
structure Inv (c : Conn) : Prop where
  cut : IsCut c.cut
  open_cut : c.closed = false → c.cut = []
  stream : c.live = true → ∃ done rest, c.sent = done ++ rest ∧ c.queued = done.filter Frame.isNotif ∧
    (c.answered = done.filter fun f => !f.isNotif) ∧ c.inBuf ++ (c.arrived ++ c.wire) = encodeAll rest ++ c.cut
  calm : c.live = true → (notifParseMessages c.inBuf).1 = []
  reading : c.reading = true → c.live = true
  gone : c.live = false → Sound c

theorem Inv.sound {c : Conn} (h : Inv c) : Sound c := by
  cases hlive : c.live with
  | false => exact h.gone hlive
  | true =>
    obtain ⟨done, rest, hsent, hqueued, hanswered, -⟩ := h.stream hlive
    refine ⟨⟨done, rest, hsent, hqueued, hanswered, ?_⟩, ?_, ?_⟩
    all_goals exact fun hdead => absurd (hlive.symm.trans hdead) Bool.noConfusion

/-- A connection is dropped when nothing that has arrived is complete, at the end of the stream or for an error. -/
theorem Inv.remove {c c' : Conn} (h : Inv c) (hlive : c.live = true) (hnone : (notifParseMessages (c.inBuf ++ c.arrived)).1 = [])
    (hwhy : c.closed = true ∧ c.wire = [] ∨ c'.failed = true) (hc : c' = { c.remove with failed := c'.failed }) : Inv c' := by
  obtain ⟨done, rest, hsent, hqueued, hanswered, hstream⟩ := h.stream hlive
  rw [hc]
  refine ⟨h.cut, h.open_cut, nofun, nofun, nofun, fun _ => ?_⟩
  refine ⟨⟨done, rest, hsent, hqueued, hanswered, ?_⟩, ?_, fun _ => hnone⟩
  · intro _ hfailed
    obtain ⟨-, hwire⟩ := hwhy.resolve_right fun he => absurd (he.symm.trans hfailed) Bool.noConfusion
    rw [hwire, append_nil] at hstream
    exact rest_eq_nil hstream hnone
  · exact fun _ => hwhy.imp And.left id

theorem Inv.step {c c' : Conn} {a : Act} (h : Inv c) (ha : a.Drained c) (hs : c.step a = some c') : Inv c' := by
  have hreading := h.reading
  cases a with
  | send f =>
    simp only [Conn.step, ite_none_left_eq_some, some.injEq, Bool.not_eq_true] at hs
    obtain ⟨hopen, rfl⟩ := hs
    refine ⟨h.cut, h.open_cut, fun hlive => ?_, h.calm, h.reading, fun hdead => ?_⟩
    · obtain ⟨done, rest, hsent, hqueued, hanswered, hstream⟩ := h.stream hlive
      refine ⟨done, rest ++ [f], ?_, hqueued, hanswered, ?_⟩
      · rw [hsent, append_assoc]
      · rw [h.open_cut hopen, append_nil] at hstream ⊢
        simp only [encodeAll, flatMap_append, flatMap_singleton, ← append_assoc] at hstream ⊢
        rw [hstream]
    · have hgone := h.gone hdead
      obtain ⟨done, rest, hsent, hqueued, hanswered, hall⟩ := hgone.handled
      refine ⟨⟨done, rest ++ [f], ?_, hqueued, hanswered, fun _ hfailed => ?_⟩, hgone.dropped, hgone.complete⟩
      · rw [hsent, append_assoc]
      · have hclosed := (hgone.dropped hdead).resolve_right (by simp [show c.failed = false from hfailed])
        exact absurd (hopen.symm.trans hclosed) Bool.noConfusion
  | sendPart f n =>
    simp only [Conn.step, ite_none_right_eq_some, some.injEq] at hs
    obtain ⟨⟨hopen, hn⟩, rfl⟩ := hs
    refine ⟨⟨f, take_prefix _ _, ?_⟩, nofun, fun hlive => ?_, h.calm, h.reading, fun hdead => ?_⟩
    · rw [length_take, length_encode] at *
      omega
    · obtain ⟨done, rest, hsent, hqueued, hanswered, hstream⟩ := h.stream hlive
      refine ⟨done, rest, hsent, hqueued, hanswered, ?_⟩
      rw [h.open_cut hopen, append_nil] at hstream
      simp only [← append_assoc] at hstream ⊢
      rw [hstream]
    · have hgone := h.gone hdead
      exact ⟨hgone.handled, fun _ => .inl rfl, hgone.complete⟩
  | close =>
    simp only [Conn.step, some.injEq] at hs
    subst hs
    refine ⟨h.cut, nofun, h.stream, h.calm, h.reading, fun hdead => ?_⟩
    exact ⟨(h.gone hdead).handled, fun _ => .inl rfl, (h.gone hdead).complete⟩
  | arrive n =>
    simp only [Conn.step, some.injEq] at hs
    subst hs
    refine ⟨h.cut, h.open_cut, fun hlive => ?_, h.calm, h.reading, fun hdead => ?_⟩
    · obtain ⟨done, rest, hsent, hqueued, hanswered, hstream⟩ := h.stream hlive
      refine ⟨done, rest, hsent, hqueued, hanswered, ?_⟩
      rw [append_assoc, take_append_drop]
      exact hstream
    · exact ⟨(h.gone hdead).handled, (h.gone hdead).dropped, (h.gone hdead).complete⟩
  | event err rdhup =>
    rw [Conn.step, ite_none_left_eq_some] at hs
    obtain ⟨hcall, hs⟩ := hs
    have hlive : c.live = true := (Bool.not_eq_false _).mp fun hdead => hcall (.inl hdead)
    split_ifs at hs with hbits
    · cases hs
      refine h.remove hlive (ha hbits) ?_ rfl
      rcases hbits with herr | hhup
      · exact .inr (by simp [herr])
      · exact .inl (Decidable.not_not.1 fun hend => hcall (.inr (.inr ⟨hhup, hend⟩)))
    · cases hs
      refine ⟨h.cut, h.open_cut, h.stream, h.calm, fun _ => hlive, ?_⟩
      exact fun hdead => absurd (hlive.symm.trans hdead) Bool.noConfusion
  | recv n =>
    simp only [Conn.step, ite_none_right_eq_some, some.injEq] at hs
    obtain ⟨⟨hread, -, -, hn⟩, rfl⟩ := hs
    have hlive := hreading hread
    obtain ⟨done, rest, hsent, hqueued, hanswered, hstream⟩ := h.stream hlive
    have hsplit : (c.inBuf ++ c.arrived.take n) ++ (c.arrived.drop n ++ c.wire) = encodeAll rest ++ c.cut := by
      rw [← hstream, append_assoc, ← append_assoc (c.arrived.take n), take_append_drop]
    obtain ⟨rest', hrest, htail, hknown, hcalm⟩ := parse_spec h.cut _ (Nat.le_refl _) hsplit
    rw [← notifParseMessages] at hrest htail hknown hcalm
    rw [if_pos hknown]
    refine ⟨h.cut, h.open_cut, fun _ => ?_, fun _ => hcalm, fun _ => hlive, ?_⟩
    · refine ⟨done ++ (notifParseMessages (c.inBuf ++ c.arrived.take n)).1, rest', ?_, ?_, ?_, htail⟩
      · rw [append_assoc, ← hrest, hsent]
      · rw [filter_append, ← hqueued]
      · rw [filter_append, ← hanswered]
    · exact fun hdead => absurd (hlive.symm.trans hdead) Bool.noConfusion
  | again =>
    simp only [Conn.step, ite_none_right_eq_some, some.injEq] at hs
    obtain ⟨⟨hread, -⟩, rfl⟩ := hs
    refine ⟨h.cut, h.open_cut, h.stream, h.calm, nofun, ?_⟩
    exact fun hdead => absurd ((hreading hread).symm.trans hdead) Bool.noConfusion
  | eof =>
    simp only [Conn.step, ite_none_right_eq_some, some.injEq] at hs
    obtain ⟨⟨hread, hclosed, hwire, harrived⟩, rfl⟩ := hs
    refine h.remove (hreading hread) ?_ (.inl ⟨hclosed, hwire⟩) rfl
    rw [harrived, append_nil]
    exact h.calm (hreading hread)
  | recvError =>
    simp only [Conn.step, ite_none_right_eq_some, some.injEq] at hs
    obtain ⟨hread, rfl⟩ := hs
    exact h.remove (hreading hread) ha (.inr rfl) rfl

theorem Inv.init : Inv .init where
  cut := ⟨⟨.query, replicate 28 0, rfl⟩, nil_prefix, by decide⟩
  open_cut _ := rfl
  stream _ := ⟨[], [], rfl, rfl, rfl, rfl⟩
  calm _ := rfl
  reading := nofun
  gone := nofun

/-- Notifications and queries are handled once each and in order in every run that reads what has arrived before it looks at
error and hang-up bits. -/
theorem notifs_delivered {c : Conn} (h : Reach Conn.step Act.Drained .init c) : Sound c :=
  (h.invariant Inv.init fun _ _ _ hc ha hs => hc.step ha hs).sound

/-! ### A sender that closes after its last notification -/

def zeros : Frame := ⟨.notif, replicate 516 0, by rw [length_replicate]; rfl⟩

set_option maxRecDepth 10000 in
theorem zeros_delivered : ∃ c, Sound c ∧ c.live = false ∧ c.queued = [zeros] := by
  have hrun : Reach Conn.step Act.Drained .init _ :=
    .next .eof (.next (.recv 520) (.next (.event false false) (.next (.arrive 520) (.next .close
      (.next (.send zeros) .init trivial rfl) trivial rfl) trivial rfl) (by simp [Act.Drained]) rfl) trivial rfl) trivial rfl
  exact ⟨_, notifs_delivered hrun, rfl, rfl⟩

set_option maxRecDepth 10000 in
/-- It arrives with the end of the stream, and the event that reports both drops the connection. -/
theorem zeros_lost : ∃ c, Reach Conn.step (fun _ _ => True) .init c ∧ ¬ Sound c ∧ c.sent = [zeros] ∧ c.queued = [] ∧
    c.failed = false := by
  refine ⟨_, .next (.event false true) (.next (.arrive 520) (.next .close (.next (.send zeros) .init trivial rfl)
    trivial rfl) trivial rfl) trivial rfl, fun h => ?_, rfl, rfl, rfl⟩
  obtain ⟨done, rest, hsent, hqueued, -, hrest⟩ := h.handled
  rw [hrest rfl rfl, append_nil] at hsent
  rw [← hsent] at hqueued
  cases hqueued

end FlagCX.Notif
