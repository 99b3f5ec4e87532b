import FlagCX.KernelProxy.Leaks
import FlagCX.KernelProxy.Standing

/-!
# The kernel worker completes in order

* `Orderly` : the invariant of the loop.
* `worker_completes_in_order` : every run of the loop.
-/

namespace FlagCX.KernelProxy
open List Option

open Net Lib

/-! ## What the log of a run says -/

/-- Every completion in the log was followed by the advance that it allows. -/
def Advanced (h : List Effect) : Prop := ∀ pre s r post, h = pre ++ .retire s r :: post → ∃ n, .advance n ∈ post

section Log
variable {h : List Effect}

theorem Allowed.advances_le (hl : Justified Allowed h) : advances h ≤ consumes h := by
  induction h using reverseRecOn with
  | nil => exact le_rfl
  | append_singleton h e ih =>
    have hle := ih hl.of_append
    rw [advances_append, consumes_append]
    cases e with
    | advance n =>
      have hn := (hl h (.advance n) [] rfl).1
      show advances h + (n + 0) ≤ consumes h + 0
      omega
    | _ => exact Nat.add_le_add hle (Nat.zero_le _)

theorem Allowed.completed (hl : Justified Allowed h) {n : Nat} (hpos : 0 < n) (hle : n ≤ advances h) :
    ∃ r, resultOf h n = some r ∧ (r ≠ .success → Published h) := by
  induction h using reverseRecOn with
  | nil => exact absurd hpos (not_lt.2 hle)
  | append_singleton h e ih =>
    have hbefore : ∀ {r}, resultOf h n = some r ∧ (r ≠ .success → Published h) →
        ∃ r, resultOf (h ++ [e]) n = some r ∧ (r ≠ .success → Published (h ++ [e])) := by
      intro r hr
      refine ⟨r, ?_, fun hne => (hr.2 hne).append [e]⟩
      rw [resultOf_append, hr.1, some_or]
    by_cases hold : n ≤ advances h
    · obtain ⟨r, hr⟩ := ih hl.of_append hold
      exact hbefore hr
    · cases e with
      | advance k =>
        rw [advances_append] at hle
        obtain ⟨r, hr⟩ := (hl h (.advance k) [] rfl).2.2 n (not_le.1 hold) hle
        exact hbefore hr
      | _ =>
        rw [advances_append] at hle
        exact absurd hle hold

theorem Allowed.next_none (hl : Justified Allowed h) (ha : Advanced h) : resultOf h (advances h + 1) = none := by
  induction h using reverseRecOn with
  | nil => rfl
  | append_singleton h e ih =>
    have hlead : (∀ n, e ≠ .advance n) → Advanced h := by
      intro hne pre s r post he
      obtain ⟨n, hn⟩ := ha pre s r (post ++ [e]) (by rw [he]; simp)
      rcases mem_append.1 hn with hmem | hlast
      · exact ⟨n, hmem⟩
      · exact absurd (mem_singleton.1 hlast).symm (hne n)
    rw [resultOf_append, advances_append]
    cases e with
    | advance n =>
      have hnone := (hl h (.advance n) [] rfl).2.1
      show (resultOf h (advances h + n + 1)).or none = none
      rw [hnone]
      rfl
    | retire s r =>
      obtain ⟨n, hn⟩ := ha h s r [] rfl
      cases hn
    | _ =>
      have hnone := ih hl.of_append (hlead fun n => nofun)
      show (resultOf h (advances h + 0 + 1)).or none = none
      rw [add_zero, hnone]
      rfl

end Log

/-! ## Runs of the loop -/

/-- What was done and what is still to do was decided in order; the words say what was done. -/
structure Orderly (l : Loop) : Prop where
  standing : Standing l.worker (l.log ++ l.todo)
  consumed : l.consumed = consumes l.log
  completed : l.completed = advances l.log
  final : l.terminalResult ≠ .success → isTerminal l.terminalResult = true
  seen : Published l.log → l.terminal ≠ .success

section Orderly
variable {l l' : Loop} {contextId : Int}

theorem isTerminal_ne {r : Result} (h : isTerminal r = true) : r ≠ .success := (of_decide_eq_true h).1

theorem access_counts (l : Loop) (e : Effect) : (l.access e).worker = l.worker ∧
    (l.access e).consumed = l.consumed + consumes [e] ∧ (l.access e).completed = l.completed + advances [e] := by
  cases e with
  | publish r | store r =>
    rw [Loop.access]
    split_ifs <;> exact ⟨rfl, rfl, rfl⟩
  | _ => exact ⟨rfl, rfl, rfl⟩

theorem Published.of_concat {h : List Effect} {e : Effect} (hp : Published (h ++ [e]))
    (hne : ∀ r, isTerminal r = true → e ≠ .publish r) : Published h := by
  obtain ⟨r, hr, hmem⟩ := hp
  rcases mem_append.1 hmem with hold | hlast
  · exact ⟨r, hr, hold⟩
  · exact absurd (mem_singleton.1 hlast).symm (hne r hr)

theorem access_terminal (l : Loop) (hfinal : l.terminalResult ≠ .success → isTerminal l.terminalResult = true) (e : Effect) :
    ((l.access e).terminalResult ≠ .success → isTerminal (l.access e).terminalResult = true) ∧
      (l.terminal ≠ .success → (l.access e).terminal ≠ .success) ∧
      ∀ r, e = .publish r → isTerminal r = true → (l.access e).terminal ≠ .success := by
  cases e with
  | publish r =>
    rw [Loop.access]
    by_cases hr : isTerminal r = true
    · rw [if_pos hr]
      have hterminal : isTerminal (if l.terminalResult = .success then r else l.terminalResult) = true := by
        split_ifs with hnone
        · exact hr
        · exact hfinal hnone
      dsimp only
      rw [if_pos hterminal]
      exact ⟨fun _ => hterminal, fun _ => isTerminal_ne hterminal, fun _ _ _ => isTerminal_ne hterminal⟩
    · rw [if_neg hr]
      exact ⟨hfinal, id, fun r' he hr' => absurd (by cases he; exact hr') hr⟩
  | store r =>
    rw [Loop.access]
    split_ifs with hr
    · exact ⟨hfinal, fun _ => isTerminal_ne hr, nofun⟩
    · exact ⟨hfinal, id, nofun⟩
  | _ => exact ⟨hfinal, id, nofun⟩

/-- **One access.** -/
theorem Orderly.access (h : Orderly l) {e : Effect} {es : List Effect} (htodo : l.todo = e :: es) :
    Orderly { l.access e with todo := es, log := l.log ++ [e] } := by
  obtain ⟨hworker, hconsumed, hcompleted⟩ := access_counts l e
  obtain ⟨hfinal, hkept, hnew⟩ := access_terminal l h.final e
  refine ⟨?_, ?_, ?_, hfinal, fun hp => ?_⟩
  · rw [hworker, ← append_cons, ← htodo]
    exact h.standing
  · rw [hconsumed, consumes_append, h.consumed]
  · rw [hcompleted, advances_append, h.completed]
  · by_cases he : ∃ r, e = .publish r ∧ isTerminal r = true
    · obtain ⟨r, he, hr⟩ := he
      exact hnew r he hr
    · exact hkept (h.seen (hp.of_concat fun r hr heq => he ⟨r, heq, hr⟩))

/-- **One step of the loop**: a call starts when nothing is left to do of the one before. -/
theorem Orderly.step (h : Orderly l) {a : LoopAct} (hstep : Loop.step contextId l a = some l') : Orderly l' := by
  have hstanding := h.standing
  cases a with
  | poll stopping canTest first second =>
    rw [Loop.step] at hstep
    split_ifs at hstep with hbusy
    push Not at hbusy
    cases hstep
    rw [hbusy.1, append_nil] at hstanding
    exact { h with standing := (hstanding.poll canTest first second).standing }
  | progress node dequeued reply =>
    rw [Loop.step] at hstep
    split_ifs at hstep with hbusy
    push Not at hbusy
    cases hstep
    rw [hbusy.1, append_nil] at hstanding
    exact { h with standing := (hstanding.progress node contextId l.terminalResult dequeued reply).1 }
  | access =>
    rw [Loop.step] at hstep
    cases htodo : l.todo with
    | nil =>
      rw [htodo] at hstep
      cases hstep
    | cons e es =>
      rw [htodo] at hstep
      cases hstep
      exact h.access htodo
  | elsewhere r =>
    cases hstep
    split_ifs with hr
    · exact { h with final := fun _ => hr.1 }
    · exact h

end Orderly

section

variable {capacity stagingSlotCount : UInt32} {generation orderingKey : UInt64} {groups : Nat → ReleaseGroup} {k : Kernel}
  (hinit : Kernel.init capacity stagingSlotCount generation orderingKey groups = .ok k)
include hinit

theorem orderly_start (buffer : Nat → UInt64) : Orderly (Loop.start k buffer) := by
  obtain ⟨hbooks, hfree, ht⟩ := books_init hinit
  obtain ⟨-, hnext, hsb⟩ := init_counts ht
  have hfront : k.transport.scoreboard.scoreboard.nextSequence.toNat = 1 := (recorded_init hsb).ledger.next
  have ho : Ordered 0 k [] := by
    refine ⟨hbooks, agrees_init hsb, justified_nil _, ?_, nofun, fun i _ hlive => absurd (hfree i) hlive, nofun, nofun⟩
    rw [hfront]
    rfl
  refine ⟨⟨ho, ⟨[], rfl, rfl⟩, ?_, nofun⟩, rfl, rfl, fun hne => absurd rfl hne, ?_⟩
  · show k.transport.nextSequence.toNat = 1
    rw [hnext]
    rfl
  · rintro ⟨r, -, hr⟩
    cases hr

/-- **The kernel worker completes in order**; a signal is at hand only behind triggers that have all succeeded. -/
theorem worker_completes_in_order (contextId : Int) (buffer : Nat → UInt64) {l : Loop}
    (hr : Reach (Loop.step contextId) (fun _ _ => True) (Loop.start k buffer) l) :
    (l.completed ≤ l.consumed ∧ (∀ n, 0 < n → n ≤ l.completed → (resultOf l.log n).isSome) ∧
      (l.todo = [] ∨ Advanced l.log → resultOf l.log (l.completed + 1) = none)) ∧
    (∀ n r, 0 < n → n ≤ l.completed → resultOf l.log n = some r → r ≠ .success → l.terminal ≠ .success) ∧
    ∀ pre e post, l.log = pre ++ e :: post → (∀ submit t call posted, e = .hand submit t call posted → AtHand pre submit t) ∧
      (∀ submit t index value, e = .count submit t index value → AtHand pre submit t) ∧
      ∀ submit t call, e = .hand submit t call true → ∀ s t' c, .hand s t' c true ∈ pre → s.sequence ≠ submit.sequence := by
  have h : Orderly l := hr.invariant (I := Orderly) (orderly_start hinit buffer) fun _ _ _ h _ hstep => h.step hstep
  have hlawful : Justified Allowed l.log := h.standing.ordered.lawful.of_append
  refine ⟨⟨?_, fun n hpos hle => ?_, fun hdone => ?_⟩, fun n r hpos hle hn hne => ?_, fun pre e post he => ⟨?_, ?_, ?_⟩⟩
  · rw [h.consumed, h.completed]
    exact Allowed.advances_le hlawful
  · obtain ⟨r, hr, -⟩ := Allowed.completed hlawful hpos (h.completed ▸ hle)
    rw [hr]
    rfl
  · rw [h.completed]
    rcases hdone with htodo | hadvanced
    · have ho := h.standing.ordered
      rw [htodo, append_nil] at ho
      rw [ho.front]
      exact ho.agrees.next_none
    · exact Allowed.next_none hlawful hadvanced
  · obtain ⟨r', hr', hpublished⟩ := Allowed.completed hlawful hpos (h.completed ▸ hle)
    obtain rfl : r' = r := some.inj (hr'.symm.trans hn)
    exact h.seen (hpublished hne)
  · rintro submit t call posted rfl
    exact (hlawful pre _ post he).1
  · rintro submit t index value rfl
    exact hlawful pre _ post he
  · rintro submit t call rfl
    exact (hlawful pre _ post he).2 rfl

end

def anyNode : Node :=
  { comm := anyComm, staging := twoContexts, nRanks := 2, signalHandle := true, counterBuffer := true, contextCount := 2
    counterCount := 4 }

def putThenSignal : List LoopAct :=
  let net : DeviceFifo.Net := ⟨0, 4, 4⟩
  let polls (done : Bool) : LoopAct := .poll false true (fun _ => ⟨⟨.success, done⟩, ⟨.success, true⟩, ⟨.success, none⟩⟩)
      fun _ => ⟨⟨.success, done⟩, ⟨.success, true⟩, ⟨.success, none⟩⟩
  let reply : Reply := ⟨⟨.inProgress, some 3⟩, .success⟩
  [polls false, .progress anyNode (some (DeviceFifo.Net.enqueueFifoPut 1 0 0 0 64 8)) reply, .access, .access, .access,
    polls false, .progress anyNode (some (net.enqueueFifoSignal 2 1 1 0)) reply, .access,
    polls true, .access, .access, .progress anyNode none reply, .access, .access]

theorem worker_completes_putThenSignal :
    ∃ l, exec (Loop.step 0) (Loop.start twoCells fun _ => 0) putThenSignal = some l ∧ l.consumed = 2 ∧ l.completed = 1 ∧
      (resultOf l.log 1).isSome ∧ resultOf l.log 2 = none := by
  have hsome : ((exec (Loop.step 0) (Loop.start twoCells fun _ => 0) putThenSignal).map fun l =>
      (l.consumed, l.completed, l.todo)) = some (2, 1, []) := by decide
  obtain ⟨l, hl, he⟩ := map_eq_some_iff.1 hsome
  simp only [Prod.mk.injEq] at he
  obtain ⟨hconsumed, hcompleted, htodo⟩ := he
  obtain ⟨⟨-, hsomes, hnone⟩, -, -⟩ := worker_completes_in_order (show Kernel.init 2 2 1 0 _ = .ok twoCells from rfl) 0
    (fun _ => 0) (Reach.of_exec (fun _ _ _ => trivial) hl)
  rw [hcompleted] at hsomes hnone
  exact ⟨l, hl, hconsumed, hcompleted, hsomes 1 one_pos le_rfl, hnone (.inl htodo)⟩

end FlagCX.KernelProxy
