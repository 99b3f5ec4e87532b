import Mathlib.Data.List.Perm.Basic

/-!
# A lossy wire with ordered channels

Messages are posted on channels. Each is lost on its own or arrives, and those of one channel that arrive do so in the
order they were posted.

* `Wire.missing`, `Wire.sent` : what has not arrived, and everything ever posted.
* `Wire.deliver_first`        : nothing that goes before an arriving message on its channel is still in flight.
-/

namespace FlagCX.Lib
open List

/-- The messages in flight in the order they were posted, and what became of the others. -/
structure Wire (μ : Type) where
  inFlight : List μ
  lost : List μ
  arrived : List μ

namespace Wire

variable {μ κ : Type}

def empty : Wire μ := ⟨[], [], []⟩

def missing (w : Wire μ) : List μ := w.inFlight ++ w.lost

def sent (w : Wire μ) : List μ := w.missing ++ w.arrived

def post (w : Wire μ) (ms : List μ) : Wire μ := { w with inFlight := w.inFlight ++ ms }

/-- The message at place `j` is lost. -/
def lose (w : Wire μ) (j : Nat) : Option (Wire μ) :=
  w.inFlight[j]?.map fun m => { w with inFlight := w.inFlight.eraseIdx j, lost := m :: w.lost }

/-- The message at place `j` arrives, if no earlier one of its channel is in flight. -/
def deliver [DecidableEq κ] (chan : μ → κ) (w : Wire μ) (j : Nat) : Option (μ × Wire μ) :=
  match w.inFlight[j]? with
  | none => none
  | some m =>
    if (w.inFlight.take j).any (fun m' => decide (chan m' = chan m)) then none
    else some (m, { w with inFlight := w.inFlight.eraseIdx j, arrived := m :: w.arrived })

/-- Nothing is posted behind what it goes before. -/
def Ordered (before : μ → μ → Prop) (w : Wire μ) : Prop := w.inFlight.Pairwise fun a b => ¬ before b a

section

variable {w w' : Wire μ} {j : Nat} {m : μ}

theorem eraseIdx_perm {l : List μ} (h : l[j]? = some m) : (m :: l.eraseIdx j).Perm l := by
  obtain ⟨hj, rfl⟩ := List.getElem?_eq_some_iff.1 h
  exact getElem_cons_eraseIdx_perm hj

/-! ## Posts -/

variable {ms : List μ}

theorem mem_missing_post : m ∈ (w.post ms).missing ↔ m ∈ w.missing ∨ m ∈ ms := by
  simp only [missing, post, mem_append]
  tauto

theorem mem_sent_post : m ∈ (w.post ms).sent ↔ m ∈ w.sent ∨ m ∈ ms := by
  rw [sent, sent, mem_append, mem_append, mem_missing_post]
  tauto

theorem countP_missing_post (p : μ → Bool) (ms : List μ) :
    (w.post ms).missing.countP p = w.missing.countP p + ms.countP p := by
  simp only [missing, post, countP_append]
  omega

variable {before : μ → μ → Prop}

theorem Ordered.post (h : w.Ordered before)
    (hms : ms.Pairwise fun a b => ¬ before b a) (hnew : ∀ a ∈ w.inFlight, ∀ b ∈ ms, ¬ before b a) :
    (w.post ms).Ordered before :=
  pairwise_append.2 ⟨h, hms, hnew⟩

/-! ## Losses -/

theorem lose_spec (h : w.lose j = some w') : w'.missing.Perm w.missing ∧ w'.arrived = w.arrived ∧
    w'.inFlight.Sublist w.inFlight := by
  obtain ⟨m, hm, rfl⟩ := Option.map_eq_some_iff.1 h
  refine ⟨?_, rfl, eraseIdx_sublist ..⟩
  exact perm_middle.trans ((eraseIdx_perm hm).append_right w.lost)

theorem mem_sent_lose (h : w.lose j = some w') : m ∈ w'.sent ↔ m ∈ w.sent := by
  obtain ⟨hperm, harrived, -⟩ := lose_spec h
  rw [sent, sent, mem_append, mem_append, hperm.mem_iff, harrived]

theorem Ordered.lose (h : w.Ordered before) (hl : w.lose j = some w') : w'.Ordered before :=
  List.Pairwise.sublist (lose_spec hl).2.2 h

/-! ## Deliveries -/

variable [DecidableEq κ] {chan : μ → κ}

section

variable (h : w.deliver chan j = some (m, w'))
include h

theorem deliver_spec : w.inFlight[j]? = some m ∧ (∀ m' ∈ w.inFlight.take j, chan m' ≠ chan m) ∧
    w' = { w with inFlight := w.inFlight.eraseIdx j, arrived := m :: w.arrived } := by
  unfold deliver at h
  split at h
  · cases h
  · rename_i hm
    split_ifs at h with hfirst
    cases h
    refine ⟨hm, fun m' hm' he => ?_, rfl⟩
    exact hfirst (any_eq_true.2 ⟨m', hm', decide_eq_true he⟩)

theorem deliver_missing : (m :: w'.missing).Perm w.missing := by
  obtain ⟨hm, -, rfl⟩ := deliver_spec h
  exact (eraseIdx_perm hm).append_right w.lost

theorem deliver_arrived : w'.arrived = m :: w.arrived := by rw [(deliver_spec h).2.2]

theorem mem_sent_deliver {m' : μ} : m' ∈ w'.sent ↔ m' ∈ w.sent := by
  have hmiss : m' = m ∨ m' ∈ w'.missing ↔ m' ∈ w.missing := by rw [← (deliver_missing h).mem_iff, mem_cons]
  rw [sent, sent, mem_append, mem_append, ← hmiss, deliver_arrived h, mem_cons]
  tauto

end

theorem countP_missing_deliver (p : μ → Bool) (h : w.deliver chan j = some (m, w')) :
    w.missing.countP p = w'.missing.countP p + if p m then 1 else 0 := by
  rw [← (deliver_missing h).countP_eq, countP_cons]

theorem Ordered.deliver (h : w.Ordered before) (hd : w.deliver chan j = some (m, w')) : w'.Ordered before := by
  obtain ⟨-, -, rfl⟩ := deliver_spec hd
  exact List.Pairwise.sublist (eraseIdx_sublist ..) h

/-- **When a message arrives, nothing that goes before it on its channel is still in flight.** -/
theorem Ordered.deliver_first (h : w.Ordered before)
    (hchan : ∀ a b, before a b → chan a = chan b) (hd : w.deliver chan j = some (m, w')) :
    ∀ m' ∈ w'.inFlight, ¬ before m' m := by
  obtain ⟨hm, hfirst, rfl⟩ := deliver_spec hd
  obtain ⟨hj, rfl⟩ := List.getElem?_eq_some_iff.1 hm
  intro m' hm' hbefore
  rw [eraseIdx_eq_take_drop_succ, mem_append] at hm'
  rcases hm' with hm' | hm'
  · exact hfirst m' hm' (hchan m' _ hbefore)
  · -- what is behind the message was posted after it
    have hsplit : w.inFlight = w.inFlight.take j ++ w.inFlight[j] :: w.inFlight.drop (j + 1) := by
      rw [← drop_eq_getElem_cons hj, take_append_drop]
    unfold Ordered at h
    rw [hsplit, pairwise_append, pairwise_cons] at h
    exact h.2.1.1 m' hm' hbefore

end

end Wire

end FlagCX.Lib
