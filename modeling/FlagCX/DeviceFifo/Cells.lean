import FlagCX.DeviceFifo.Fifo
import FlagCX.Lib.Words

/-!
# The cells of the FIFO

* `Config.cell`   : the slot of a sequence, through its word.
* `Cells`         : the words are the counts, sequences in use have slots of their own, a published trigger stands in its
  slot, and a set valid bit belongs to a published trigger that is not taken.
* `Cells.step`    : every step that reserves apart keeps `Cells`.
-/

namespace FlagCX.DeviceFifo
open Lib List Function

namespace Config
variable (c : Config)

/-- `(CompletionWord)capacity` -/
def window : Nat := c.word c.capacity

def cell (n : Nat) : Nat := c.slot (c.word n)

end Config

/-- A sequence is reserved, and its last word not stored. -/
def ProducerPc.holds : ProducerPc → Bool
  | .waiting | .full | .spaced | .writingFst | .writingSnd | .writingTrd => true
  | _ => false

def ProducerPc.cleared : ProducerPc → Bool
  | .spaced | .writingFst | .writingSnd | .writingTrd => true
  | _ => false

variable {pc : ProducerPc}

theorem ProducerPc.holds_of_cleared (h : pc.cleared = true) : pc.holds = true := by
  cases pc <;> first | rfl | cases h

/-- What a producer has reserved and stored. -/
structure Held (c : Config) (s : State) (x : Producer) : Prop where
  mine : x.pc.holds = true → s.reserved[x.seq]? = some x.trigger ∧ x.mySlot = c.word x.seq ∧ x.seq ∉ s.published
  room : x.pc.cleared = true → x.seq < s.consumedCount + c.window
  fst : x.pc = .writingSnd ∨ x.pc = .writingTrd → (s.slots (c.cell x.seq)).fst = x.trigger.fst
  snd : x.pc = .writingTrd → (s.slots (c.cell x.seq)).snd = x.trigger.snd
  done : x.pc = .leaving .success ∨ x.pc = .returned .success → x.seq ∈ s.published ∧ s.reserved[x.seq]? = some x.trigger

def State.Worker (c : Config) (s : State) : Prop :=
  match s.host with
  | .idle | .looked => s.delivered.length = s.consumedCount
  | .valid trd =>
    s.delivered.length = s.consumedCount ∧ s.consumedCount ∈ s.published ∧ (s.slots (c.cell s.consumedCount)).trd = trd
  | .readFst fst trd =>
    s.delivered.length = s.consumedCount ∧ s.consumedCount ∈ s.published ∧
      (s.slots (c.cell s.consumedCount)).trd = trd ∧ (s.slots (c.cell s.consumedCount)).fst = fst
  | .readSnd fst snd trd =>
    s.delivered.length = s.consumedCount ∧ s.consumedCount ∈ s.published ∧ s.slots (c.cell s.consumedCount) = ⟨fst, snd, trd⟩
  | .pending _ => s.delivered.length = s.consumedCount + 1
  | _ => False

structure Cells (c : Config) (s : State) : Prop where
  produced : s.produced = c.word s.reserved.length
  consumed : s.consumed = c.word s.consumedCount
  lt : s.reserved.length < s.consumedCount + c.values
  apart : ∀ a b, s.consumedCount ≤ a → a < b → b < s.reserved.length → b < a + c.window → c.cell a ≠ c.cell b
  held : ∀ p, Held c s (s.producers p)
  distinct : ∀ p q, p ≠ q → (s.producers p).pc.holds = true → (s.producers q).pc.holds = true →
    (s.producers p).seq ≠ (s.producers q).seq
  bounds : ∀ n ∈ s.published, n < s.reserved.length ∧ n < s.consumedCount + c.window
  taken : ∀ n < s.delivered.length, n ∈ s.published
  stored : ∀ n ∈ s.published, s.delivered.length ≤ n → ∀ t, s.reserved[n]? = some t → s.slots (c.cell n) = t.publish
  marked : ∀ i, (s.slots i).trd &&& validField.place 1#64 ≠ 0 → ∃ n ∈ s.published, s.delivered.length ≤ n ∧ c.cell n = i
  delivered : s.delivered = (s.reserved.take s.delivered.length).map fun t => t.publish.taken
  worker : s.Worker c

/-- The worker takes triggers and advances `consumed`, and a sequence is reserved only while fewer than the values of a word
are in use and none of them, less than a window before, has the same slot. -/
structure Apart (c : Config) (s : State) (a : Action) : Prop where
  gateOpen : a ≠ .host .close
  few : ∀ p, a = .producer p → (s.producers p).pc = .entered → s.reserved.length + 1 < s.consumedCount + c.values
  apart : ∀ p, a = .producer p → (s.producers p).pc = .entered → ∀ m, s.consumedCount ≤ m → m < s.reserved.length →
    s.reserved.length < m + c.window → c.cell m ≠ c.cell s.reserved.length

section Lemmas
variable {c : Config} {s s' : State} {x : Producer} {p n : Nat}

theorem Held.mono (h : Held c s x) (hreserved : ∀ (n : Nat) t, s.reserved[n]? = some t → s'.reserved[n]? = some t)
    (hcount : s.consumedCount ≤ s'.consumedCount)
    (hfresh : x.pc.holds = true → x.seq ∉ s.published → x.seq ∉ s'.published)
    (hpublished : ∀ n ∈ s.published, n ∈ s'.published)
    (hslots : x.pc.cleared = true → s'.slots (c.cell x.seq) = s.slots (c.cell x.seq)) : Held c s' x := by
  refine ⟨fun hx => ?_, fun hx => ?_, fun hx => ?_, fun hx => ?_, fun hx => ?_⟩
  · obtain ⟨ht, hslot, hn⟩ := h.mine hx
    exact ⟨hreserved _ _ ht, hslot, hfresh hx hn⟩
  · have := h.room hx
    omega
  · rw [hslots (by rcases hx with hx | hx <;> rw [hx] <;> rfl), h.fst hx]
  · rw [hslots (by rw [hx]; rfl), h.snd hx]
  · obtain ⟨hn, ht⟩ := h.done hx
    exact ⟨hpublished _ hn, hreserved _ _ ht⟩

theorem Held.free (hx : x.pc.holds = false) (hleaving : x.pc ≠ .leaving .success) (hreturned : x.pc ≠ .returned .success) :
    Held c s x := by
  have hnot : ¬ x.pc.holds = true := by rw [hx]; exact Bool.false_ne_true
  refine ⟨fun h => absurd h hnot, fun h => absurd (ProducerPc.holds_of_cleared h) hnot, fun h => ?_, fun h => ?_, ?_⟩
  · rcases h with h | h <;> rw [h] at hnot <;> exact absurd rfl hnot
  · rw [h] at hnot
    exact absurd rfl hnot
  · rintro (h | h)
    · exact absurd h hleaving
    · exact absurd h hreturned

namespace Cells

section

variable (h : Cells c s)
include h

theorem congr (h1 : s'.produced = s.produced) (h2 : s'.consumed = s.consumed) (h3 : s'.slots = s.slots)
    (h4 : s'.producers = s.producers) (h5 : s'.host = s.host) (h6 : s'.reserved = s.reserved)
    (h7 : s'.published = s.published) (h8 : s'.delivered = s.delivered) (h9 : s'.consumedCount = s.consumedCount) :
    Cells c s' := by
  obtain ⟨_, _, _, _, _, _, _, _, _, _, _, _, _, _⟩ := s
  cases h1; cases h2; cases h3; cases h4; cases h5; cases h6; cases h7; cases h8; cases h9
  refine ⟨h.produced, h.consumed, h.lt, h.apart, fun p => ?_, h.distinct, h.bounds, h.taken, h.stored, h.marked,
    h.delivered, h.worker⟩
  exact (h.held p).mono (fun _ _ ht => ht) le_rfl (fun _ hn => hn) (fun _ hn => hn) fun _ => rfl

theorem taken_le : s.delivered.length ≤ s.reserved.length := by
  cases hd : s.delivered.length with
  | zero => exact Nat.zero_le _
  | succ d => exact (h.bounds d (h.taken d (by omega))).1

theorem consumed_le : s.consumedCount ≤ s.delivered.length ∧ s.delivered.length ≤ s.consumedCount + 1 := by
  have hw := h.worker
  rw [State.Worker] at hw
  cases hhost : s.host <;> rw [hhost] at hw <;> first | exact hw.elim | (dsimp only at hw; omega)

theorem cell_inj {a b : Nat} (ha : s.consumedCount ≤ a) (ha' : a < s.reserved.length) (haw : a < s.consumedCount + c.window)
    (hb : s.consumedCount ≤ b) (hb' : b < s.reserved.length) (hbw : b < s.consumedCount + c.window)
    (he : c.cell a = c.cell b) : a = b := by
  rcases lt_trichotomy a b with hab | hab | hab
  · exact absurd he (h.apart a b ha hab hb' (by omega))
  · exact hab
  · exact absurd he.symm (h.apart b a hb hab ha' (by omega))

theorem consumed_le_seq (hx : (s.producers p).pc.holds = true) :
    s.consumedCount ≤ (s.producers p).seq ∧ (s.producers p).seq < s.reserved.length := by
  obtain ⟨ht, -, hn⟩ := (h.held p).mine hx
  obtain ⟨hlt, -⟩ := List.getElem?_eq_some_iff.1 ht
  refine ⟨?_, hlt⟩
  by_contra hlt'
  have := h.consumed_le
  exact hn (h.taken _ (by omega))

theorem cell_ne_published (hx : (s.producers p).pc.cleared = true) (hn : n ∈ s.published) (hle : s.consumedCount ≤ n) :
    c.cell n ≠ c.cell (s.producers p).seq := by
  intro he
  have hholds := ProducerPc.holds_of_cleared hx
  obtain ⟨hle', hlt'⟩ := h.consumed_le_seq hholds
  obtain ⟨hlt, hwindow⟩ := h.bounds n hn
  have heq := h.cell_inj hle hlt hwindow hle' hlt' ((h.held p).room hx) he
  rw [heq] at hn
  exact ((h.held p).mine hholds).2.2 hn

theorem cell_ne_cleared {q : Nat} (hpq : q ≠ p) (hq : (s.producers q).pc.cleared = true)
    (hp : (s.producers p).pc.cleared = true) : c.cell (s.producers q).seq ≠ c.cell (s.producers p).seq := by
  intro he
  obtain ⟨hp1, hp2⟩ := h.consumed_le_seq (ProducerPc.holds_of_cleared hp)
  obtain ⟨hq1, hq2⟩ := h.consumed_le_seq (ProducerPc.holds_of_cleared hq)
  exact h.distinct q p hpq (ProducerPc.holds_of_cleared hq) (ProducerPc.holds_of_cleared hp)
    (h.cell_inj hq1 hq2 ((h.held q).room hq) hp1 hp2 ((h.held p).room hp) he)

theorem setProducer (hx : Held c s x)
    (hdistinct : x.pc.holds = true → ∀ q, q ≠ p → (s.producers q).pc.holds = true → (s.producers q).seq ≠ x.seq) :
    Cells c (s.setProducer p x) := by
  have hself : (s.setProducer p x).producers p = x := update_self ..
  have hother : ∀ q, q ≠ p → (s.setProducer p x).producers q = s.producers q := fun q hq => update_of_ne hq ..
  refine ⟨h.produced, h.consumed, h.lt, h.apart, fun q => ?_, fun q r hqr hq hr => ?_, h.bounds, h.taken, h.stored,
    h.marked, h.delivered, h.worker⟩
  · by_cases hq : q = p
    · rw [hq, hself]
      exact hx.mono (fun _ _ ht => ht) le_rfl (fun _ hn => hn) (fun _ hn => hn) fun _ => rfl
    · rw [hother q hq]
      exact (h.held q).mono (fun _ _ ht => ht) le_rfl (fun _ hn => hn) (fun _ hn => hn) fun _ => rfl
  · by_cases hqp : q = p
    · rw [hqp, hself] at hq ⊢
      rw [hother r (fun he => hqr (hqp.trans he.symm))] at hr ⊢
      exact (hdistinct hq r (fun he => hqr (hqp.trans he.symm)) hr).symm
    · rw [hother q hqp] at hq ⊢
      by_cases hrp : r = p
      · rw [hrp, hself] at hr ⊢
        exact hdistinct hr q hqp hq
      · rw [hother r hrp] at hr ⊢
        exact h.distinct q r hqr hq hr

theorem setPc (hx : Held c s { s.producers p with pc := pc }) (hholds : pc.holds = true → (s.producers p).pc.holds = true) :
    Cells c (s.setProducer p { s.producers p with pc := pc }) :=
  h.setProducer hx fun hpc q hq hq' => h.distinct q p hq hq' (hholds hpc)

theorem reserve (t : Trigger) (hfew : s.reserved.length + 1 < s.consumedCount + c.values)
    (hapart : ∀ m, s.consumedCount ≤ m → m < s.reserved.length → s.reserved.length < m + c.window → c.cell m ≠ c.cell s.reserved.length) : Cells c (s.reserve c t) := by
  have hlen : (s.reserve c t).reserved.length = s.reserved.length + 1 := by
    rw [State.reserve, length_append, length_singleton]
  have hold : ∀ (n : Nat) u, s.reserved[n]? = some u → (s.reserve c t).reserved[n]? = some u := by
    intro n u hu
    obtain ⟨hn, -⟩ := List.getElem?_eq_some_iff.1 hu
    exact (getElem?_append_left hn).trans hu
  have hnew : ∀ n < s.reserved.length, (s.reserve c t).reserved[n]? = s.reserved[n]? := fun n hn => getElem?_append_left hn
  refine ⟨?_, h.consumed, ?_, ?_, fun p => ?_, h.distinct, ?_, h.taken, ?_, h.marked, ?_, h.worker⟩
  · show c.word (s.produced + 1) = _
    rw [hlen, h.produced]
    exact Nat.mod_add_mod ..
  · rw [hlen]
    exact hfew
  · intro a b ha hab hb hwindow
    by_cases hlast : b = s.reserved.length
    · rw [hlast] at hab hwindow ⊢
      exact hapart a ha hab hwindow
    · exact h.apart a b ha hab (by omega) hwindow
  · exact (h.held p).mono hold le_rfl (fun _ hn => hn) (fun _ hn => hn) fun _ => rfl
  · intro n hn
    obtain ⟨hlt, hwindow⟩ := h.bounds n hn
    exact ⟨by omega, hwindow⟩
  · intro n hn hle u hu
    rw [hnew n (h.bounds n hn).1] at hu
    exact h.stored n hn hle u hu
  · have htake : (s.reserved ++ [t]).take s.delivered.length = s.reserved.take s.delivered.length :=
      take_append_of_le_length h.taken_le
    show s.delivered = ((s.reserved ++ [t]).take s.delivered.length).map _
    rw [htake]
    exact h.delivered

end

end Cells

theorem State.Worker.mono (h : s.Worker c) (hhost : s'.host = s.host) (hdelivered : s'.delivered = s.delivered)
    (hcount : s'.consumedCount = s.consumedCount) (hpublished : ∀ n ∈ s.published, n ∈ s'.published)
    (hslots : s.consumedCount ∈ s.published → s'.slots (c.cell s.consumedCount) = s.slots (c.cell s.consumedCount)) :
    s'.Worker c := by
  rw [State.Worker] at h ⊢
  rw [hhost, hdelivered, hcount]
  cases hpc : s.host <;> rw [hpc] at h <;> dsimp only at h ⊢
  case valid =>
    obtain ⟨h1, h2, h3⟩ := h
    exact ⟨h1, hpublished _ h2, by rw [hslots h2, h3]⟩
  case readFst =>
    obtain ⟨h1, h2, h3, h4⟩ := h
    exact ⟨h1, hpublished _ h2, by rw [hslots h2, h3], by rw [hslots h2, h4]⟩
  case readSnd =>
    obtain ⟨h1, h2, h3⟩ := h
    exact ⟨h1, hpublished _ h2, by rw [hslots h2, h3]⟩
  all_goals exact h

namespace Cells

section

variable (h : Cells c s)
include h

theorem write {u : Trigger} (hx : (s.producers p).pc.cleared = true) (hpc : pc.cleared = true)
    (htrd : u.trd = (s.slots (c.cell (s.producers p).seq)).trd)
    (hfst : pc = .writingSnd ∨ pc = .writingTrd → u.fst = (s.producers p).trigger.fst)
    (hsnd : pc = .writingTrd → u.snd = (s.producers p).trigger.snd) :
    Cells c ((s.setSlot (c.cell (s.producers p).seq) u).setProducer p { s.producers p with pc := pc }) := by
  have hholds := ProducerPc.holds_of_cleared hx
  have hslot : ∀ i, i ≠ c.cell (s.producers p).seq → (s.setSlot (c.cell (s.producers p).seq) u).slots i = s.slots i :=
    fun i hi => update_of_ne hi ..
  have hmine : (s.setSlot (c.cell (s.producers p).seq) u).slots (c.cell (s.producers p).seq) = u := update_self ..
  have hself : ((s.setSlot (c.cell (s.producers p).seq) u).setProducer p { s.producers p with pc := pc }).producers p =
      { s.producers p with pc := pc } := update_self ..
  have hother : ∀ q, q ≠ p → ((s.setSlot (c.cell (s.producers p).seq) u).setProducer p
      { s.producers p with pc := pc }).producers q = s.producers q := fun q hq => update_of_ne hq ..
  have hstored : ∀ n ∈ s.published, s.consumedCount ≤ n →
      (s.setSlot (c.cell (s.producers p).seq) u).slots (c.cell n) = s.slots (c.cell n) :=
    fun n hn hle => hslot _ (h.cell_ne_published hx hn hle)
  refine ⟨h.produced, h.consumed, h.lt, h.apart, fun q => ?_, fun q r hqr hq hr => ?_, h.bounds, h.taken, ?_, ?_,
    h.delivered, ?_⟩
  · by_cases hqp : q = p
    · rw [hqp, hself]
      refine ⟨fun _ => (h.held p).mine hholds, fun _ => (h.held p).room hx, fun hq => ?_, fun hq => ?_, ?_⟩
      · exact (congrArg Trigger.fst hmine).trans (hfst hq)
      · exact (congrArg Trigger.snd hmine).trans (hsnd hq)
      · rintro (hq | hq) <;> rw [show pc = _ from hq] at hpc <;> cases hpc
    · rw [hother q hqp]
      exact (h.held q).mono (fun _ _ ht => ht) le_rfl (fun _ hn => hn) (fun _ hn => hn)
        fun hq => hslot _ (h.cell_ne_cleared hqp hq hx)
  · have hold : ∀ q, (((s.setSlot (c.cell (s.producers p).seq) u).setProducer p
        { s.producers p with pc := pc }).producers q).pc.holds = true → (s.producers q).pc.holds = true := by
      intro q hq
      by_cases hqp : q = p
      · rw [hqp]
        exact hholds
      · rwa [hother q hqp] at hq
    have hseq : ∀ q, (((s.setSlot (c.cell (s.producers p).seq) u).setProducer p
        { s.producers p with pc := pc }).producers q).seq = (s.producers q).seq := by
      intro q
      by_cases hqp : q = p
      · rw [hqp, hself]
      · rw [hother q hqp]
    rw [hseq, hseq]
    exact h.distinct q r hqr (hold q hq) (hold r hr)
  · intro n hn hle t ht
    exact (hstored n hn (h.consumed_le.1.trans hle)).trans (h.stored n hn hle t ht)
  · intro i hi
    by_cases hip : i = c.cell (s.producers p).seq
    · refine h.marked i ?_
      rw [hip] at hi ⊢
      rw [← htrd]
      exact fun hzero => hi ((congrArg (fun t : Trigger => t.trd &&& validField.place 1#64) hmine).trans hzero)
    · refine h.marked i ?_
      rw [← hslot i hip]
      exact hi
  · exact h.worker.mono rfl rfl rfl (fun _ hn => hn) fun hn => hstored _ hn le_rfl

theorem publish (hpc : (s.producers p).pc = .writingTrd) :
    Cells c { (s.setSlot (c.cell (s.producers p).seq) { s.slots (c.cell (s.producers p).seq) with
        trd := (s.producers p).trigger.publish.trd }).setProducer p { s.producers p with pc := .leaving .success } with
      published := (s.producers p).seq :: s.published } := by
  have hx : (s.producers p).pc.cleared = true := by rw [hpc]; rfl
  have hholds := ProducerPc.holds_of_cleared hx
  obtain ⟨hmine, hword, hnot⟩ := (h.held p).mine hholds
  obtain ⟨hle, hlt⟩ := h.consumed_le_seq hholds
  have hroom := (h.held p).room hx
  have htrigger : ({ s.slots (c.cell (s.producers p).seq) with trd := (s.producers p).trigger.publish.trd } : Trigger) =
      (s.producers p).trigger.publish := by
    show Trigger.mk (s.slots _).fst (s.slots _).snd _ = _
    rw [(h.held p).fst (.inr hpc), (h.held p).snd hpc]
    rfl
  rw [htrigger]
  have hslot : ∀ i, i ≠ c.cell (s.producers p).seq →
      (s.setSlot (c.cell (s.producers p).seq) (s.producers p).trigger.publish).slots i = s.slots i :=
    fun i hi => update_of_ne hi ..
  have hself : (s.setSlot (c.cell (s.producers p).seq) (s.producers p).trigger.publish).slots
      (c.cell (s.producers p).seq) = (s.producers p).trigger.publish := update_self ..
  have hother : ∀ q, q ≠ p → update s.producers p { s.producers p with pc := .leaving .success } q =
      s.producers q := fun q hq => update_of_ne hq ..
  have hfresh : ∀ n ∈ s.published, s.consumedCount ≤ n → c.cell n ≠ c.cell (s.producers p).seq :=
    fun n hn => h.cell_ne_published hx hn
  have hdelivered : s.delivered.length ≤ (s.producers p).seq := by
    by_contra hlt'
    exact hnot (h.taken _ (by omega))
  refine ⟨h.produced, h.consumed, h.lt, h.apart, fun q => ?_, fun q r hqr hq hr => ?_, ?_, ?_, ?_, ?_, h.delivered, ?_⟩
  · show Held c _ (update s.producers p _ q)
    by_cases hqp : q = p
    · rw [hqp, update_self]
      exact ⟨nofun, nofun, nofun, nofun, fun _ => ⟨mem_cons_self, hmine⟩⟩
    · rw [hother q hqp]
      refine (h.held q).mono (fun _ _ ht => ht) le_rfl (fun hq hn => ?_) (fun _ hn => mem_cons_of_mem _ hn)
        fun hq => hslot _ (h.cell_ne_cleared hqp hq hx)
      rw [mem_cons]
      rintro (he | hn')
      · exact h.distinct q p hqp hq hholds he
      · exact hn hn'
  · change (update s.producers p _ q).pc.holds = true at hq
    change (update s.producers p _ r).pc.holds = true at hr
    show (update s.producers p _ q).seq ≠ (update s.producers p _ r).seq
    have hqp : q ≠ p := by rintro rfl; rw [update_self] at hq; cases hq
    have hrp : r ≠ p := by rintro rfl; rw [update_self] at hr; cases hr
    rw [hother q hqp] at hq ⊢
    rw [hother r hrp] at hr ⊢
    exact h.distinct q r hqr hq hr
  · intro n hn
    rcases mem_cons.1 hn with rfl | hn
    · exact ⟨hlt, hroom⟩
    · exact h.bounds n hn
  · exact fun n hn => mem_cons_of_mem _ (h.taken n hn)
  · intro n hn hd t ht
    change s.reserved[n]? = some t at ht
    rcases mem_cons.1 hn with rfl | hn
    · rw [hmine] at ht
      cases ht
      exact hself
    · exact (hslot _ (hfresh n hn (h.consumed_le.1.trans hd))).trans (h.stored n hn hd t ht)
  · intro i hi
    by_cases hip : i = c.cell (s.producers p).seq
    · exact ⟨_, mem_cons_self, hdelivered, hip.symm⟩
    · have hi' : (s.slots i).trd &&& validField.place 1#64 ≠ 0 := by
        rw [← hslot i hip]
        exact hi
      obtain ⟨n, hn, hd, he⟩ := h.marked i hi'
      exact ⟨n, mem_cons_of_mem _ hn, hd, he⟩
  · exact h.worker.mono rfl rfl rfl (fun _ hn => mem_cons_of_mem _ hn) fun hn => hslot _ (hfresh _ hn le_rfl)

theorem setHost {host : Host} (hw : ({ s with host := host } : State).Worker c) : Cells c { s with host := host } :=
  ⟨h.produced, h.consumed, h.lt, h.apart,
    fun p => (h.held p).mono (fun _ _ ht => ht) le_rfl (fun _ hn => hn) (fun _ hn => hn) fun _ => rfl,
    h.distinct, h.bounds, h.taken, h.stored, h.marked, h.delivered, hw⟩

theorem slot_consumed : c.slot s.consumed = c.cell s.consumedCount := by rw [h.consumed, Config.cell]

theorem valid_published (hidle : s.delivered.length = s.consumedCount)
    (hvalid : (s.slots (c.cell s.consumedCount)).trd &&& validField.place 1#64 ≠ 0) : s.consumedCount ∈ s.published := by
  obtain ⟨n, hn, hle, he⟩ := h.marked _ hvalid
  obtain ⟨hlt, hwindow⟩ := h.bounds n hn
  have hn' := h.cell_inj (a := n) (b := s.consumedCount) (by omega) hlt hwindow le_rfl (by omega) (by omega) he
  rwa [hn'] at hn

theorem dequeue (hs : s.dequeueStep c = some s') : Cells c s' := by
  rw [State.dequeueStep, h.slot_consumed] at hs
  have hw := h.worker
  rw [State.Worker] at hw
  cases hhost : s.host <;> rw [hhost] at hs hw <;> cases hs <;> dsimp only at hw
  case idle =>
    split_ifs
    · exact h
    · exact h.setHost hw
  case looked =>
    split_ifs with hvalid
    · exact h.setHost hw
    · exact h.setHost ⟨hw, h.valid_published hw hvalid, rfl⟩
  case valid trd => exact h.setHost ⟨hw.1, hw.2.1, hw.2.2, rfl⟩
  case readFst fst trd =>
    obtain ⟨h1, h2, h3, h4⟩ := hw
    refine h.setHost ⟨h1, h2, ?_⟩
    rw [← h3, ← h4]
  case readSnd fst snd trd =>
    obtain ⟨hlen, hpub, hslot⟩ := hw
    obtain ⟨hlt, hwindow⟩ := h.bounds _ hpub
    obtain ⟨u, hget⟩ : ∃ u, s.reserved[s.consumedCount]? = some u := ⟨_, getElem?_eq_getElem hlt⟩
    have htrigger := h.stored _ hpub hlen.le _ hget
    rw [hslot] at htrigger
    have hother : ∀ i, i ≠ c.cell s.consumedCount → update s.slots (c.cell s.consumedCount)
        { s.slots (c.cell s.consumedCount) with trd := 0 } i = s.slots i := fun i hi => update_of_ne hi ..
    have hlen' : (s.delivered ++ [(Trigger.mk fst snd trd).taken]).length = s.consumedCount + 1 := by
      rw [length_append, length_singleton, hlen]
    have hne : ∀ n ∈ s.published, s.consumedCount < n → c.cell n ≠ c.cell s.consumedCount := by
      intro n hn hcn he
      obtain ⟨hn1, hn2⟩ := h.bounds n hn
      exact absurd (h.cell_inj hcn.le hn1 hn2 le_rfl hlt hwindow he) (ne_of_gt hcn)
    refine ⟨h.produced, h.consumed, h.lt, h.apart, fun p => ?_, h.distinct, h.bounds, ?_, ?_, ?_, ?_, hlen'⟩
    · refine (h.held p).mono (fun _ _ ht => ht) le_rfl (fun _ hn => hn) (fun _ hn => hn) fun hx => ?_
      exact hother _ (h.cell_ne_published hx hpub le_rfl).symm
    · intro n hn
      rw [hlen'] at hn
      by_cases hnc : n = s.consumedCount
      · rw [hnc]
        exact hpub
      · exact h.taken n (by omega)
    · intro n hn hle t ht
      rw [hlen'] at hle
      exact (hother _ (hne n hn hle)).trans (h.stored n hn (by omega) t ht)
    · intro i hi
      by_cases hic : i = c.cell s.consumedCount
      · refine absurd ?_ hi
        show (update s.slots _ _ i).trd &&& _ = 0
        rw [hic, update_self]
        exact BitVec.zero_and
      · have hi' : (s.slots i).trd &&& validField.place 1#64 ≠ 0 := by
          rw [← hother i hic]
          exact hi
        obtain ⟨n, hn, hle, he⟩ := h.marked i hi'
        refine ⟨n, hn, ?_, he⟩
        rw [hlen']
        have : n ≠ s.consumedCount := by rintro rfl; exact hic he.symm
        omega
    · show s.delivered ++ [_] = (s.reserved.take (s.delivered ++ [_]).length).map _
      rw [hlen', take_add_one, map_append, hget, htrigger, ← hlen, ← h.delivered]
      rfl

theorem consume {t : Trigger} (hhost : s.host = .pending t) :
    Cells c { s with consumed := c.word (s.consumed + 1), consumedCount := s.consumedCount + 1, host := .idle } := by
  have hw := h.worker
  rw [State.Worker, hhost] at hw
  have hlt := h.lt
  refine ⟨h.produced, ?_, ?_, ?_, fun p => ?_, h.distinct, ?_, h.taken, h.stored, h.marked, h.delivered, hw⟩
  · rw [h.consumed]
    exact Nat.mod_add_mod ..
  · show s.reserved.length < s.consumedCount + 1 + c.values
    omega
  · intro a b ha hab hb hwindow
    change s.consumedCount + 1 ≤ a at ha
    exact h.apart a b (by omega) hab hb hwindow
  · exact (h.held p).mono (fun _ _ ht => ht) (Nat.le_succ _) (fun _ hn => hn) (fun _ hn => hn) fun _ => rfl
  · intro n hn
    obtain ⟨h1, h2⟩ := h.bounds n hn
    refine ⟨h1, ?_⟩
    show n < s.consumedCount + 1 + c.window
    omega

theorem room_iff (hx : (s.producers p).pc.holds = true) : c.word c.capacity ≤ c.diff (s.producers p).mySlot s.consumed ↔
      s.consumedCount + c.window ≤ (s.producers p).seq := by
  obtain ⟨hle, hlt⟩ := h.consumed_le_seq hx
  have hvalues : 0 < c.values := Nat.two_pow_pos _
  have := h.lt
  have hdiff : c.diff (c.word (s.producers p).seq) (c.word s.consumedCount) = (s.producers p).seq - s.consumedCount :=
    wrapDiff_of_le hvalues hle (by omega)
  rw [((h.held p).mine hx).2.1, h.consumed, hdiff, Config.window]
  omega

theorem producer (hok : Apart c s (.producer p)) (hs : s.producerStep c p = some s') : Cells c s' := by
  have harrive : Cells c (s.arrive c) := h.congr rfl rfl rfl rfl rfl rfl rfl rfl rfl
  have hdepart : Cells c (s.depart c) := h.congr rfl rfl rfl rfl rfl rfl rfl rfl rfl
  -- to a place without a reservation
  have out : ∀ {t : State} {pc : ProducerPc}, Cells c t → t.producers p = s.producers p → pc.holds = false →
      pc ≠ .leaving .success → pc ≠ .returned .success → Cells c (t.setProducer p { s.producers p with pc := pc }) := by
    intro t pc ht hp hpc hleaving hreturned
    rw [← hp]
    exact ht.setPc (Held.free hpc hleaving hreturned) fun hholds => absurd (hpc.symm.trans hholds) Bool.false_ne_true
  have hslot : (s.producers p).pc.cleared = true → c.slot (s.producers p).mySlot = c.cell (s.producers p).seq := by
    intro hcleared
    rw [((h.held p).mine (ProducerPc.holds_of_cleared hcleared)).2.1, Config.cell]
  rw [State.producerStep] at hs
  cases hpc : (s.producers p).pc with
  | idle => rw [hpc] at hs; cases hs
  | returned => rw [hpc] at hs; cases hs
  | entering =>
    rw [hpc] at hs
    cases hs
    split_ifs
    · exact out harrive rfl rfl nofun nofun
    · exact out harrive rfl rfl nofun nofun
  | rejected =>
    rw [hpc] at hs
    cases hs
    exact out hdepart rfl rfl nofun nofun
  | refused =>
    rw [hpc] at hs
    cases hs
    refine out h rfl rfl nofun ?_
    split_ifs with hterminal
    · exact nofun
    · exact fun he => hterminal (ProducerPc.returned.inj he)
  | entered =>
    rw [hpc] at hs
    cases hs
    refine (h.reserve _ (hok.few p rfl hpc) (hok.apart p rfl hpc)).setProducer ?_ fun _ q _ hq => ?_
    · refine ⟨fun _ => ⟨?_, h.produced, fun hn => ?_⟩, nofun, nofun, nofun, nofun⟩
      · exact getElem?_concat_length
      · exact absurd (h.bounds _ hn).1 (lt_irrefl _)
    · exact ne_of_lt (h.consumed_le_seq hq).2
  | waiting =>
    have hholds : (s.producers p).pc.holds = true := by rw [hpc]; rfl
    rw [hpc] at hs
    cases hs
    refine h.setPc ⟨fun _ => (h.held p).mine hholds, fun hcleared => ?_, ?_, ?_, ?_⟩ fun _ => hholds
    · have hspace : ¬ c.word c.capacity ≤ c.diff (s.producers p).mySlot s.consumed := by
        intro hfull
        rw [if_pos hfull] at hcleared
        cases hcleared
      rw [h.room_iff hholds] at hspace
      show (s.producers p).seq < _
      omega
    all_goals dsimp only; split_ifs <;> nofun
  | full =>
    have hholds : (s.producers p).pc.holds = true := by rw [hpc]; rfl
    rw [hpc] at hs
    cases hs
    split_ifs with hterminal
    · exact out h rfl rfl (fun he => hterminal (ProducerPc.leaving.inj he)) nofun
    · exact h.setPc ⟨fun _ => (h.held p).mine hholds, nofun, nofun, nofun, nofun⟩ fun _ => hholds
  | spaced =>
    have hholds : (s.producers p).pc.holds = true := by rw [hpc]; rfl
    have hcleared : (s.producers p).pc.cleared = true := by rw [hpc]; rfl
    rw [hpc] at hs
    cases hs
    split_ifs with hterminal
    · exact out h rfl rfl (fun he => hterminal (ProducerPc.leaving.inj he)) nofun
    · exact h.setPc ⟨fun _ => (h.held p).mine hholds, fun _ => (h.held p).room hcleared, nofun, nofun, nofun⟩ fun _ => hholds
  | writingFst =>
    have hcleared : (s.producers p).pc.cleared = true := by rw [hpc]; rfl
    rw [hpc] at hs
    cases hs
    rw [hslot hcleared]
    exact h.write hcleared rfl rfl (fun _ => rfl) nofun
  | writingSnd =>
    have hcleared : (s.producers p).pc.cleared = true := by rw [hpc]; rfl
    rw [hpc] at hs
    cases hs
    rw [hslot hcleared]
    exact h.write hcleared rfl rfl (fun _ => (h.held p).fst (.inl hpc)) fun _ => rfl
  | writingTrd =>
    have hcleared : (s.producers p).pc.cleared = true := by rw [hpc]; rfl
    rw [hpc] at hs
    cases hs
    rw [hslot hcleared]
    exact h.publish hpc
  | leaving r =>
    rw [hpc] at hs
    cases hs
    by_cases hr : r = .success
    · rw [hr] at hpc ⊢
      exact hdepart.setPc ⟨nofun, nofun, nofun, nofun, fun _ => (h.held p).done (.inl hpc)⟩ nofun
    · exact out hdepart rfl rfl nofun fun he => hr (ProducerPc.returned.inj he)

end

theorem init (c : Config) : Cells c State.init := by
  have hvalues : 0 < c.values := Nat.two_pow_pos _
  refine ⟨(Nat.zero_mod _).symm, (Nat.zero_mod _).symm, ?_, ?_, fun _ => Held.free rfl nofun nofun, nofun, nofun, nofun,
    nofun, ?_, rfl, rfl⟩
  · show 0 < 0 + c.values
    omega
  · intro a b _ _ hb
    exact absurd hb (Nat.not_lt_zero b)
  · exact fun _ hi => absurd (BitVec.zero_and) hi

theorem host (h : Cells c s) {a : HostAction} (hok : a ≠ .close) (hs : s.hostStep c a = some s') : Cells c s' := by
  have hw := h.worker
  rw [State.Worker] at hw
  cases a with
  | dequeue => exact h.dequeue hs
  | consume =>
    rw [State.hostStep] at hs
    split at hs
    · rename_i hhost
      cases hs
      exact h.consume hhost
    · cases hs
  | advance k | storeTerminal r =>
    rw [State.hostStep] at hs
    split_ifs at hs
    cases hs
    exact h.congr rfl rfl rfl rfl rfl rfl rfl rfl rfl
  | close => exact absurd rfl hok
  | await =>
    rw [State.hostStep] at hs
    split at hs
    · rename_i hhost
      rw [hhost] at hw
      exact hw.elim
    · cases hs
  | finalize =>
    rw [State.hostStep, State.finalizeStep] at hs
    cases hhost : s.host <;> rw [hhost] at hs hw <;> first | exact hw.elim | cases hs

theorem step (h : Cells c s) {a : Action} (hok : Apart c s a) (hs : s.step c a = some s') : Cells c s' := by
  cases a with
  | enqueue p t =>
    rw [State.step] at hs
    split_ifs at hs
    cases hs
    exact h.setProducer (Held.free rfl nofun nofun) nofun
  | producer p => exact h.producer hok hs
  | flush f =>
    rw [State.step] at hs
    split_ifs at hs
    cases hs
    exact h.congr rfl rfl rfl rfl rfl rfl rfl rfl rfl
  | flusher f =>
    rw [State.step, State.flusherStep] at hs
    split at hs <;> cases hs <;> exact h.congr rfl rfl rfl rfl rfl rfl rfl rfl rfl
  | host a => exact h.host (fun he => hok.gateOpen (by rw [he])) hs

theorem of_reach (h : Reach (State.step c) (Apart c) State.init s) : Cells c s :=
  h.invariant (Cells.init c) fun _ _ _ hs hok => hs.step hok

end Cells
end Lemmas

end FlagCX.DeviceFifo
