import FlagCX.DeviceFifo.Trigger

/-!
# What the proxy reads back

* `publish_read`   : the valid bit is not part of any field.
* `Request.Fits`   : every argument of a request is as narrow as its field; `read_fits` : those read are.
* `read_transfer` and its like : a trigger whose arguments fit is read back.
* `sound_iff_fits` : an operation is read back as it was asked for exactly when its requests fit.
-/

namespace FlagCX.DeviceFifo
open Lib List

/-! ## The valid bit -/

variable {f : Field}

theorem Field.read_publish (h : f.Apart validField) (t : Trigger) : f.read t.publish.trd = f.read t.trd := by
  rw [Trigger.publish, Field.read_or, Field.read_place_apart h (by decide), BitVec.or_zero]

theorem Field.read_taken (h : f.Apart validField) (t : Trigger) : f.read t.taken.trd = f.read t.trd :=
  Field.read_and_not_place h (by decide)

theorem Trigger.read_congr {t u : Trigger} (hfst : t.fst = u.fst) (hsnd : t.snd = u.snd)
    (htrd : ∀ f : Field, f.Apart validField → f.read t.trd = f.read u.trd) : t.read = u.read := by
  have hprim : t.getPrim = u.getPrim := htrd primField (by decide)
  have hidx : t.getSignalIdx = u.getSignalIdx := by
    rw [getSignalIdx, getSignalIdx, hprim, htrd signalIdxField (by decide), htrd signalIdxSigField (by decide)]
  have hvalue : t.getSignalValue = u.getSignalValue := by
    rw [getSignalValue, getSignalValue, hprim, hsnd, htrd signalValueField (by decide)]
  rw [read, read, hprim, hidx, hvalue, getPeerRank, getPeerRank, getAddr, getAddr, getDatatype, getDatatype, getCount,
    getCount, getSrcMrIdx, getSrcMrIdx, getDstMrIdx, getDstMrIdx, getSize, getSize, getSrcOffset, getSrcOffset,
    getDstOffset, getDstOffset, getValue, getValue, getBufferType, getBufferType, getTotalCoops, getTotalCoops, hfst, hsnd,
    htrd peerRankField (by decide), htrd datatypeField (by decide), htrd countField (by decide),
    htrd srcMrIdxField (by decide), htrd dstMrIdxField (by decide), htrd bufferTypeField (by decide)]

theorem Trigger.publish_read (t : Trigger) : t.publish.read = t.read :=
  Trigger.read_congr rfl rfl fun _ h => Field.read_publish h t

theorem Trigger.taken_read (t : Trigger) : t.taken.read = t.read :=
  Trigger.read_congr rfl rfl fun _ h => Field.read_taken h t

/-! ## Requests that fit -/

/-- Every argument is as narrow as its field. -/
def Request.Fits : Request → Prop
  | .send _ count datatype peer | .recv _ count datatype peer =>
    countField.Fits count ∧ datatypeField.Fits datatype ∧ peerRankField.Fits peer
  | .term _ => True
  | .put peer srcMrIdx dstMrIdx srcOffset dstOffset size | .get peer srcMrIdx dstMrIdx srcOffset dstOffset size =>
    peerRankField.Fits peer ∧ srcMrIdxField.Fits srcMrIdx ∧ dstMrIdxField.Fits dstMrIdx ∧
      srcOffsetField.Fits srcOffset ∧ dstOffsetField.Fits dstOffset ∧ sizeField.Fits size
  | .putValue peer dstMrIdx dstOffset _ =>
    peerRankField.Fits peer ∧ dstMrIdxField.Fits dstMrIdx ∧ dstOffsetField.Fits dstOffset
  | .putSignal peer srcMrIdx dstMrIdx srcOffset dstOffset size signalIdx _ =>
    peerRankField.Fits peer ∧ srcMrIdxField.Fits srcMrIdx ∧ dstMrIdxField.Fits dstMrIdx ∧
      srcOffsetField.Fits srcOffset ∧ dstOffsetField.Fits dstOffset ∧ sizeField.Fits size ∧
      signalIdx < 2 ^ signalIdxField.bits
  | .signal peer signalIdx _ => peerRankField.Fits peer ∧ signalIdx < 2 ^ signalIdxSigField.bits
  | .counter counterIdx _ => counterIdx < 2 ^ signalIdxSigField.bits
  | .noOp => True

theorem Trigger.read_fits (t : Trigger) : t.read.Fits := by
  rw [Trigger.read]
  split_ifs with hsend hrecv hterm hput hsignal hbuffer hputSignal hputValue hget
  · exact ⟨Field.read_fits, Field.read_fits, Field.read_fits⟩
  · exact ⟨Field.read_fits, Field.read_fits, Field.read_fits⟩
  · trivial
  · exact ⟨Field.read_fits, Field.read_fits, Field.read_fits, Field.read_fits, Field.read_fits, Field.read_fits⟩
  · refine ⟨Field.read_fits, ?_⟩
    rw [getSignalIdx]
    split_ifs
    · exact Field.read_fits
    · exact Field.read_fits
  · rw [getSignalIdx]
    split_ifs
    · exact Field.read_fits
    · exact Field.read_fits
  · refine ⟨Field.read_fits, Field.read_fits, Field.read_fits, Field.read_fits, Field.read_fits, Field.read_fits, ?_⟩
    rw [getSignalIdx, if_pos hputSignal]
    exact Field.read_fits
  · exact ⟨Field.read_fits, Field.read_fits, Field.read_fits⟩
  · exact ⟨Field.read_fits, Field.read_fits, Field.read_fits, Field.read_fits, Field.read_fits, Field.read_fits⟩
  · trivial

/-! ## The last word -/

section Trd
variable {prim : Prim} {peer spec : Word}

theorem Prim.code_fits (prim : Prim) : primField.Fits prim.code := by cases prim <;> decide

theorem read_prim_buildTrd (h : specificField.Fits spec) : primField.read (buildTrd prim peer spec) = prim.code := by
  rw [buildTrd, Field.read_or, Field.read_or, Field.and_mask_of_fits prim.code_fits, Field.read_above h (by decide),
    Field.read_place_self prim.code_fits (by decide), Field.read_place_apart (by decide) Field.and_mask_fits]
  simp

theorem read_peerRank_buildTrd (hpeer : peerRankField.Fits peer) (h : specificField.Fits spec) :
    peerRankField.read (buildTrd prim peer spec) = peer := by
  rw [buildTrd, Field.read_or, Field.read_or, Field.and_mask_of_fits hpeer, Field.read_above h (by decide),
    Field.read_place_self hpeer (by decide), Field.read_place_apart (by decide) Field.and_mask_fits]
  simp

theorem read_buildTrd (h : f.off + f.bits ≤ 39) : f.read (buildTrd prim peer spec) = f.read spec := by
  have hprim : f.Apart primField := .inl (by simp only [primField]; omega)
  have hpeer : f.Apart peerRankField := .inl (by simpa only [peerRankField] using h)
  rw [buildTrd, Field.read_or, Field.read_or, Field.read_place_apart hprim Field.and_mask_fits,
    Field.read_place_apart hpeer Field.and_mask_fits]
  simp

end Trd

/-! ## Triggers that fit -/

def Trigger.readAs (t : Trigger) : Prim → Request
  | .send => .send t.getAddr t.getCount t.getDatatype t.getPeerRank
  | .recv => .recv t.getAddr t.getCount t.getDatatype t.getPeerRank
  | .term => .term t.getTotalCoops
  | .put => .put t.getPeerRank t.getSrcMrIdx t.getDstMrIdx t.getSrcOffset t.getDstOffset t.getSize
  | .signal =>
    if t.getBufferType = 0 then .signal t.getPeerRank (signalIdxSigField.read t.trd).toNat (signalValueField.read t.trd)
    else .counter (signalIdxSigField.read t.trd).toNat (signalValueField.read t.trd)
  | .putValue => .putValue t.getPeerRank t.getDstMrIdx t.getDstOffset t.getValue
  | .putSignal =>
    .putSignal t.getPeerRank t.getSrcMrIdx t.getDstMrIdx t.getSrcOffset t.getDstOffset t.getSize
      (signalIdxField.read t.trd).toNat (signalValuePutField.read t.snd)
  | .get => .get t.getPeerRank t.getSrcMrIdx t.getDstMrIdx t.getSrcOffset t.getDstOffset t.getSize
  | .signalValue =>
    if t.getBufferType = 0 then .signal t.getPeerRank (signalIdxSigField.read t.trd).toNat t.snd
    else .counter (signalIdxSigField.read t.trd).toNat t.snd

theorem Trigger.read_eq {t : Trigger} {prim : Prim} (h : t.getPrim = prim.code) : t.read = t.readAs prim := by
  rw [read, getSignalIdx, getSignalValue, h]
  cases prim <;> rfl

section Encoders

attribute [local simp] Trigger.readAs Trigger.getAddr Trigger.getCount Trigger.getDatatype Trigger.getPeerRank
  Trigger.getSrcMrIdx Trigger.getDstMrIdx Trigger.getSrcOffset Trigger.getDstOffset Trigger.getSize Trigger.getBufferType
  Trigger.getValue read_buildTrd read_peerRank_buildTrd Field.read_or Field.read_place_apart Field.read_place_self

variable (net : Net) {addr count datatype peer srcMrIdx dstMrIdx srcOffset dstOffset size value : Word} {signalIdx : Nat}

theorem read_buildTrd_eq {prim : Prim} {fst snd spec : Word} (hspec : specificField.Fits spec) :
    (Trigger.mk fst snd (buildTrd prim peer spec)).read = (Trigger.mk fst snd (buildTrd prim peer spec)).readAs prim :=
  Trigger.read_eq (read_prim_buildTrd hspec)

theorem twoSided_fits (hcount : countField.Fits count) (hdatatype : datatypeField.Fits datatype) :
    specificField.Fits (datatypeField.place datatype ||| countField.place count) :=
  .or (hdatatype.place (by decide)) (hcount.place (by decide))

theorem read_enqueueFifoSend (h : (Request.send addr count datatype peer).Fits) :
    (Net.enqueueFifoSend addr count datatype peer).read = .send addr count datatype peer := by
  obtain ⟨hcount, hdatatype, hpeer⟩ := h
  have hspec := twoSided_fits hcount hdatatype
  rw [Net.enqueueFifoSend, Net.twoSided, read_buildTrd_eq hspec]
  simp (disch := first | assumption | decide)

theorem read_enqueueFifoRecv (h : (Request.recv addr count datatype peer).Fits) :
    (Net.enqueueFifoRecv addr count datatype peer).read = .recv addr count datatype peer := by
  obtain ⟨hcount, hdatatype, hpeer⟩ := h
  have hspec := twoSided_fits hcount hdatatype
  rw [Net.enqueueFifoRecv, Net.twoSided, read_buildTrd_eq hspec]
  simp (disch := first | assumption | decide)

theorem read_enqueueFifoTerm (totalCoops : Word) : (Net.enqueueFifoTerm totalCoops).read = .term totalCoops := by
  rw [Net.enqueueFifoTerm, read_buildTrd_eq (by decide)]
  rfl

theorem transfer_fits (hsrc : srcMrIdxField.Fits srcMrIdx) (hdst : dstMrIdxField.Fits dstMrIdx) :
    specificField.Fits (srcMrIdxField.place srcMrIdx ||| dstMrIdxField.place dstMrIdx) :=
  .or (hsrc.place (by decide)) (hdst.place (by decide))

theorem read_enqueueFifoPut (h : (Request.put peer srcMrIdx dstMrIdx srcOffset dstOffset size).Fits) :
    (Net.enqueueFifoPut peer srcMrIdx dstMrIdx srcOffset dstOffset size).read =
      .put peer srcMrIdx dstMrIdx srcOffset dstOffset size := by
  obtain ⟨hpeer, hsrc, hdst, hsrcOffset, hdstOffset, hsize⟩ := h
  have hspec := transfer_fits hsrc hdst
  rw [Net.enqueueFifoPut, Net.transfer, read_buildTrd_eq hspec]
  simp (disch := first | assumption | decide)

theorem read_enqueueFifoGet (h : (Request.get peer srcMrIdx dstMrIdx srcOffset dstOffset size).Fits) :
    (Net.enqueueFifoGet peer srcMrIdx dstMrIdx srcOffset dstOffset size).read =
      .get peer srcMrIdx dstMrIdx srcOffset dstOffset size := by
  obtain ⟨hpeer, hsrc, hdst, hsrcOffset, hdstOffset, hsize⟩ := h
  have hspec := transfer_fits hsrc hdst
  rw [Net.enqueueFifoGet, Net.transfer, read_buildTrd_eq hspec]
  simp (disch := first | assumption | decide)

theorem read_enqueueFifoPutValue (h : (Request.putValue peer dstMrIdx dstOffset value).Fits) :
    (Net.enqueueFifoPutValue peer dstMrIdx dstOffset value).read = .putValue peer dstMrIdx dstOffset value := by
  obtain ⟨hpeer, hdst, hdstOffset⟩ := h
  have hspec : specificField.Fits (dstMrIdxField.place dstMrIdx) := hdst.place (by decide)
  have hoffset : dstOffsetField.read dstOffset = dstOffset := by
    rw [Field.read, show dstOffsetField.off = 0 from rfl, BitVec.ushiftRight_zero, Field.and_mask_of_fits hdstOffset]
  rw [Net.enqueueFifoPutValue, read_buildTrd_eq hspec]
  simp (disch := first | assumption | decide) [Field.and_mask_of_fits, hoffset]

theorem fits_ofNat (hf : f.bits ≤ 64) (h : signalIdx < 2 ^ f.bits) :
    f.Fits (BitVec.ofNat 64 signalIdx) ∧ (BitVec.ofNat 64 signalIdx).toNat = signalIdx := by
  have hlt : signalIdx < 2 ^ 64 := lt_of_lt_of_le h (Nat.pow_le_pow_right (by decide) hf)
  have e : (BitVec.ofNat 64 signalIdx).toNat = signalIdx := by rw [BitVec.toNat_ofNat, Nat.mod_eq_of_lt hlt]
  exact ⟨by rwa [Field.Fits, e], e⟩

theorem read_enqueueFifoPutSignal (hvalue : signalValuePutField.Fits value)
    (h : (Request.putSignal peer srcMrIdx dstMrIdx srcOffset dstOffset size (net.signalSlot signalIdx) value).Fits) :
    (net.enqueueFifoPutSignal peer srcMrIdx dstMrIdx srcOffset dstOffset size signalIdx value).read =
      .putSignal peer srcMrIdx dstMrIdx srcOffset dstOffset size (net.signalSlot signalIdx) value := by
  obtain ⟨hpeer, hsrc, hdst, hsrcOffset, hdstOffset, hsize, hlt⟩ := h
  obtain ⟨hidx, hslot⟩ := fits_ofNat (f := signalIdxField) (by decide) hlt
  have hspec := Field.Fits.or (transfer_fits hsrc hdst) (hidx.place (f := specificField) (by decide))
  have hmask : value &&& Field.mask 64 16 = value := Field.and_mask_of_fits hvalue
  rw [Net.enqueueFifoPutSignal, read_buildTrd_eq hspec, hmask]
  simp (disch := first | assumption | decide) [hslot]

/-- The request of a signal (`bufferType` 0) or of a counter (`bufferType` 1). -/
def signalRequest (bufferType peer : Word) (idx : Nat) (value : Word) : Request :=
  if bufferType = 0 then .signal peer idx value else .counter idx value

theorem read_enqueueFifoSignal {bufferType : Word} (hbuffer : bufferTypeField.Fits bufferType)
    (hvalue : signalValueField.Fits value) (hpeer : peerRankField.Fits peer)
    (hlt : net.combinedIdx signalIdx bufferType < 2 ^ signalIdxSigField.bits) :
    (net.enqueueFifoSignal signalIdx value peer bufferType).read =
      signalRequest bufferType peer (net.combinedIdx signalIdx bufferType) value := by
  obtain ⟨hidx, hslot⟩ := fits_ofNat (f := signalIdxSigField) (by decide) hlt
  have hspec : specificField.Fits (bufferTypeField.place bufferType |||
      signalIdxSigField.place (BitVec.ofNat 64 (net.combinedIdx signalIdx bufferType)) ||| signalValueField.place value) :=
    .or (.or (hbuffer.place (by decide)) (hidx.place (by decide))) (hvalue.place (by decide))
  have hmask : value &&& Field.mask 64 16 = value := Field.and_mask_of_fits hvalue
  rw [Net.enqueueFifoSignal, hmask, read_buildTrd_eq hspec]
  simp (disch := first | assumption | decide) [hslot, signalRequest]

theorem read_enqueueFifoSignalValue {bufferType : Word} (hbuffer : bufferTypeField.Fits bufferType)
    (hpeer : peerRankField.Fits peer) (hlt : net.combinedIdx signalIdx bufferType < 2 ^ signalIdxSigField.bits) :
    (net.enqueueFifoSignalValue signalIdx value peer bufferType).read =
      signalRequest bufferType peer (net.combinedIdx signalIdx bufferType) value := by
  obtain ⟨hidx, hslot⟩ := fits_ofNat (f := signalIdxSigField) (by decide) hlt
  have hspec : specificField.Fits (bufferTypeField.place bufferType |||
      signalIdxSigField.place (BitVec.ofNat 64 (net.combinedIdx signalIdx bufferType))) :=
    .or (hbuffer.place (by decide)) (hidx.place (by decide))
  rw [Net.enqueueFifoSignalValue, read_buildTrd_eq hspec]
  simp (disch := first | assumption | decide) [hslot, signalRequest]

theorem fits_of_le (hf : f.bits ≤ 64) (h : value ≤ Field.mask 64 f.bits) : f.Fits value := by
  have hle : value.toNat ≤ (Field.mask 64 f.bits).toNat := h
  have hpos := Nat.two_pow_pos f.bits
  have hpow : 2 ^ f.bits ≤ 2 ^ 64 := Nat.pow_le_pow_right (by decide) hf
  rw [Field.mask, BitVec.toNat_ofNat, Nat.mod_eq_of_lt (by omega)] at hle
  rw [Field.Fits]
  omega

theorem read_enqueueFifoSignalAction {ra : RemoteAction}
    (h : (Request.signal peer (net.signalSlot ra.signalIdx) ra.value).Fits) :
    (net.enqueueFifoSignalAction ra peer).read = .signal peer (net.signalSlot ra.signalIdx) ra.value := by
  obtain ⟨hpeer, hlt⟩ := h
  rw [Net.enqueueFifoSignalAction]
  split_ifs with hle
  · exact read_enqueueFifoSignal net (by decide) (fits_of_le (by decide) hle) hpeer hlt
  · exact read_enqueueFifoSignalValue net (by decide) hpeer hlt

end Encoders

/-! ## Operations -/

def adds (ts : List Trigger) : List (Word × Nat × Word) := ts.flatMap fun t => t.read.adds

/-- The triggers of an operation, through the FIFO, are read as the arguments it was called with; a `put` that is fused with
its signal adds the same to the same signal as the two triggers it stands for. -/
structure Net.Sound (net : Net) (op : Operation) : Prop where
  decoded : (net.enqueue op).map (fun t => t.publish.taken.read) = net.wanted op
  split : ∀ peer srcMrIdx dstMrIdx srcOffset dstOffset size ra la,
    op = .put peer srcMrIdx dstMrIdx srcOffset dstOffset size ra la → ra.canFuse = true →
      adds [net.enqueueFifoPutSignal peer srcMrIdx dstMrIdx srcOffset dstOffset size ra.signalIdx ra.value] =
        adds (enqueueFifoPut peer srcMrIdx dstMrIdx srcOffset dstOffset size :: net.splitSignal ra peer)

/-- Every argument of an operation is as narrow as the field it goes to. -/
def Net.Fits (net : Net) (op : Operation) : Prop := ∀ r ∈ net.wanted op, r.Fits

section Operations
variable {net : Net} {peer : Word} {ra : RemoteAction}

theorem RemoteAction.value_fits (h : ra.canFuse = true) : signalValuePutField.Fits ra.value := by
  cases ra with
  | none => cases h
  | signalInc => exact show (1#64).toNat < 2 ^ 16 by decide
  | signalAdd _ value => exact fits_of_le (by decide) (of_decide_eq_true h)

theorem RemoteAction.isSignal_of_canFuse (h : ra.canFuse = true) : ra.isSignal = true := by
  cases ra with
  | none => cases h
  | signalInc => rfl
  | signalAdd => rfl

theorem map_read_splitSignal (h : ∀ r ∈ net.wantedSignal ra peer, r.Fits) :
    (net.splitSignal ra peer).map Trigger.read = net.wantedSignal ra peer := by
  rw [Net.splitSignal, Net.wantedSignal] at *
  split_ifs at h ⊢
  · rw [map_singleton, read_enqueueFifoSignalAction net (h _ (by simp))]
  · rfl

theorem read_counter {counterIdx : Nat} (h : (Request.counter (net.counterSlot counterIdx) 1).Fits) :
    (net.enqueueFifoSignal counterIdx 1 0 1).read = .counter (net.counterSlot counterIdx) 1 :=
  read_enqueueFifoSignal net (by decide) (by decide) (by decide) h

theorem map_read_enqueue {op : Operation} (h : net.Fits op) : (net.enqueue op).map Trigger.read = net.wanted op := by
  cases op with
  | send => exact congrArg (fun r => [r]) (read_enqueueFifoSend (h _ (by simp [Net.wanted])))
  | recv => exact congrArg (fun r => [r]) (read_enqueueFifoRecv (h _ (by simp [Net.wanted])))
  | term => exact congrArg (fun r => [r]) (read_enqueueFifoTerm _)
  | get => exact congrArg (fun r => [r]) (read_enqueueFifoGet (h _ (by simp [Net.wanted])))
  | signal => exact map_read_splitSignal h
  | putValue peer dstMrIdx dstOffset value ra =>
    rw [Net.enqueue, Net.wanted, map_cons, read_enqueueFifoPutValue (h _ (by simp [Net.wanted])),
      map_read_splitSignal fun r hr => h r (by simp [Net.wanted, hr])]
  | put peer srcMrIdx dstMrIdx srcOffset dstOffset size ra la =>
    have hcounter : (la.toList.map fun counterIdx => (net.enqueueFifoSignal counterIdx 1 0 1).read) =
        la.toList.map fun counterIdx => .counter (net.counterSlot counterIdx) 1 := by
      apply map_congr_left
      intro counterIdx hmem
      exact read_counter (h _ (by simpa [Net.wanted] using .inr ⟨counterIdx, by simpa using hmem, rfl⟩))
    rw [Net.enqueue, Net.wanted, map_append, map_map, ← hcounter]
    congr 1
    split_ifs with hfuse
    · rw [map_singleton,
        read_enqueueFifoPutSignal net (RemoteAction.value_fits hfuse) (h _ (by simp [Net.wanted, hfuse]))]
    · rw [map_cons, read_enqueueFifoPut (h _ (by simp [Net.wanted, hfuse])),
        map_read_splitSignal fun r hr => h r (by simp [Net.wanted, hfuse, hr])]

theorem adds_eq (ts : List Trigger) : adds ts = (ts.map Trigger.read).flatMap Request.adds := by rw [adds, flatMap_map]

theorem adds_fused {srcMrIdx dstMrIdx srcOffset dstOffset size : Word} (hfuse : ra.canFuse = true)
    (h : (Request.putSignal peer srcMrIdx dstMrIdx srcOffset dstOffset size (net.signalSlot ra.signalIdx) ra.value).Fits) :
    adds [net.enqueueFifoPutSignal peer srcMrIdx dstMrIdx srcOffset dstOffset size ra.signalIdx ra.value] =
      adds (Net.enqueueFifoPut peer srcMrIdx dstMrIdx srcOffset dstOffset size :: net.splitSignal ra peer) := by
  have hfused := read_enqueueFifoPutSignal net (RemoteAction.value_fits hfuse) h
  obtain ⟨hpeer, hsrc, hdst, hsrcOffset, hdstOffset, hsize, hlt⟩ := h
  have hsignal : net.wantedSignal ra peer = [.signal peer (net.signalSlot ra.signalIdx) ra.value] := by
    rw [Net.wantedSignal, if_pos (RemoteAction.isSignal_of_canFuse hfuse)]
  have hsplit : (net.splitSignal ra peer).map Trigger.read = net.wantedSignal ra peer := by
    apply map_read_splitSignal
    rw [hsignal]
    intro r hr
    rw [mem_singleton] at hr
    subst hr
    exact ⟨hpeer, hlt⟩
  rw [adds_eq, adds_eq, map_singleton, hfused, map_cons,
    read_enqueueFifoPut ⟨hpeer, hsrc, hdst, hsrcOffset, hdstOffset, hsize⟩, hsplit, hsignal]
  rfl

end Operations

/-- **Trigger round trip.** The valid bit is not part of any field; and of every operation, with any arguments, the proxy
reads back the arguments it was called with, and adds the same to the same signal for a fused `put` as for the two triggers
it stands for, exactly when every argument is as narrow as its field. -/
theorem sound_iff_fits (net : Net) (op : Operation) :
    (∀ t : Trigger, t.publish.read = t.read) ∧ (net.Sound op ↔ net.Fits op) := by
  refine ⟨Trigger.publish_read, fun h r hr => ?_, fun h => ⟨?_, ?_⟩⟩
  · rw [← h.decoded] at hr
    obtain ⟨t, _, rfl⟩ := mem_map.1 hr
    exact Trigger.read_fits _
  · rw [← map_read_enqueue h]
    apply map_congr_left
    intro t _
    rw [Trigger.taken_read, Trigger.publish_read]
  · rintro peer srcMrIdx dstMrIdx srcOffset dstOffset size ra la rfl hfuse
    exact adds_fused hfuse (h _ (by simp [Net.wanted, hfuse]))

/-! ## The space of a communicator -/

/-- What bounds the arguments of the operations on a communicator. -/
structure Comm where
  nRanks : Nat
  contextCount : Nat
  userSignals : Nat
  barrierSlots : Nat
  counterCount : Nat
  windowBytes : Nat
  mrCount : Nat

/-- The checks of `defaultDevApiCommCreate` on the signal space, with an `int` of 32 bits and a `size_t` of 64. -/
def Comm.Accepted (c : Comm) : Prop :=
  0 < c.contextCount ∧ c.userSignals + c.barrierSlots < 2 ^ 31 ∧
    (c.userSignals + c.barrierSlots) * c.contextCount * 8 < 2 ^ 64

def Comm.net (c : Comm) (contextId : Nat) : Net := ⟨contextId, c.userSignals + c.barrierSlots, c.counterCount⟩

/-- A `put` between windows of the communicator with one of its signals. -/
def Comm.Admits (c : Comm) : Operation → Prop
  | .put peer srcMrIdx dstMrIdx srcOffset dstOffset size ra la =>
    peer.toNat < c.nRanks ∧ srcMrIdx.toNat < c.mrCount ∧ dstMrIdx.toNat < c.mrCount ∧
      srcOffset.toNat + size.toNat ≤ c.windowBytes ∧ dstOffset.toNat + size.toNat ≤ c.windowBytes ∧
      (ra.isSignal = true → ra.signalIdx < c.userSignals + c.barrierSlots) ∧ ∀ counterIdx ∈ la, counterIdx < c.counterCount
  | _ => False

/-- A `put` of 4 GiB between windows of 8 GiB is read back as a `put` of nothing. -/
theorem put_4GiB_not_sound :
    ¬ ∀ (c : Comm) (contextId : Nat) (op : Operation), c.Accepted → contextId < c.contextCount → c.Admits op →
      (c.net contextId).Sound op := by
  intro h
  have hsound := h ⟨2, 1, 4, 0, 4, 2 ^ 33, 2⟩ 0 (.put 1 0 1 0 0 0x100000000 .none none) (by simp [Comm.Accepted])
    (by decide) (by simp [Comm.Admits, RemoteAction.isSignal])
  have hdecoded := hsound.decoded
  revert hdecoded
  decide

end FlagCX.DeviceFifo
