import FlagCX.KernelProxy.Posts
import FlagCX.KernelProxy.Worker
import FlagCX.Lib.Guarded
import FlagCX.Lib.History
import FlagCX.Net.Prefix

/-!
# The kernel worker completes in order

* `Allowed`  : what must have been done before an effect of the worker.
* `Ordered`  : the invariant of the kernel and of all that was decided so far.
* `Ordered.record`, `Ordered.poll` : a completion keeps it, and so does a poll.
-/

namespace FlagCX.KernelProxy
open List Function Option

open Net Lib Transport

/-! ## What was done so far -/

def consumes (h : List Effect) : Nat := h.count .consume

/-- The triggers that `dequeue` has returned. -/
def takes (h : List Effect) : List DeviceFifo.Trigger := h.filterMap fun
    | .take t => some t
    | _ => none

def Effect.advanced : Effect → Nat
  | .advance n => n
  | _ => 0

/-- How far `completed` was advanced. -/
def advances (h : List Effect) : Nat := (h.map Effect.advanced).sum

def Effect.result (n : Nat) : Effect → Option Result
  | .retire submit r => if submit.sequence.toNat = n then some r else none
  | _ => none

/-- The result with which the `n`-th trigger has completed. -/
def resultOf (h : List Effect) (n : Nat) : Option Result := h.findSome? (Effect.result n)

def Published (h : List Effect) : Prop := ∃ r, isTerminal r = true ∧ .publish r ∈ h

/-- `PrimSignal`, `PrimSignalValue` and `PrimPutSignal`. -/
def signals (t : DeviceFifo.Trigger) : Bool :=
  match t.read with
  | .signal .. | .counter .. | .putSignal .. => true
  | _ => false

/-- The trigger with this submission is the first that is not consumed; before a signal all have completed with success. -/
structure AtHand (h : List Effect) (submit : SubmitContext) (t : DeviceFifo.Trigger) : Prop where
  number : submit.sequence.toNat = consumes h + 1
  trigger : (takes h)[consumes h]? = some t
  release : signals t = true → ∀ n, 0 < n → n ≤ consumes h → resultOf h n = some .success

/-- What must have been done before an effect. -/
def Allowed (h : List Effect) : Effect → Prop
  | .hand submit t _ posted => AtHand h submit t ∧
      (posted = true → ∀ s t' c, .hand s t' c true ∈ h → s.sequence ≠ submit.sequence)
  | .count submit t _ _ => AtHand h submit t
  | .retire submit r => resultOf h submit.sequence.toNat = none ∧ r ≠ .inProgress
  | .advance n => advances h + n ≤ consumes h ∧ resultOf h (advances h + n + 1) = none ∧
      ∀ m, advances h < m → m ≤ advances h + n → ∃ r, resultOf h m = some r ∧ (r ≠ .success → Published h)
  | _ => True

section History
variable {h p : List Effect} {n : Nat}

theorem consumes_append (h p : List Effect) : consumes (h ++ p) = consumes h + consumes p := count_append

theorem advances_append (h p : List Effect) : advances (h ++ p) = advances h + advances p := by
  rw [advances, map_append, sum_append]
  rfl

theorem takes_append (h p : List Effect) : takes (h ++ p) = takes h ++ takes p := filterMap_append

theorem resultOf_append (h p : List Effect) (n : Nat) : resultOf (h ++ p) n = (resultOf h n).or (resultOf p n) :=
  findSome?_append

theorem Published.append (hp : Published h) (p : List Effect) : Published (h ++ p) := by
  obtain ⟨r, hr, hmem⟩ := hp
  exact ⟨r, hr, mem_append_left p hmem⟩

def Effect.silent : Effect → Bool
  | .publish _ | .store _ => true
  | _ => false

/-- Only the terminal status is published or stored. -/
def Silent (p : List Effect) : Prop := ∀ e ∈ p, e.silent = true

theorem silent_nil : Silent [] := nofun

theorem silent_publish (r : Result) : Silent [.publish r] := by
  intro e he
  rw [mem_singleton.1 he]
  rfl

theorem silent_failed (r : Result) : Silent (failed r) := by
  rw [failed]
  split_ifs
  · exact silent_nil
  · exact silent_publish r

theorem mem_failed {r : Result} (hr : r ≠ .success) : .publish r ∈ failed r := by
  rw [failed, if_neg hr]
  exact mem_singleton_self _

theorem Silent.append (hh : Silent h) (hp : Silent p) : Silent (h ++ p) := fun e he => (mem_append.1 he).elim (hh e) (hp e)

theorem Silent.counts (hp : Silent p) : consumes p = 0 ∧ takes p = [] ∧ advances p = 0 ∧ ∀ n, resultOf p n = none := by
  induction p with
  | nil => exact ⟨rfl, rfl, rfl, fun _ => rfl⟩
  | cons e p ih =>
    obtain ⟨hc, ht, ha, hr⟩ := ih fun e he => hp e (mem_cons_of_mem _ he)
    have he := hp e mem_cons_self
    cases e with
    | publish r | store r =>
      refine ⟨(count_cons_of_ne (by simp)).trans hc, ht, ?_, hr⟩
      exact (zero_add _).trans ha
    | _ => cases he

theorem Silent.allowed (hp : Silent p) {e : Effect} (he : e ∈ p) (h : List Effect) : Allowed h e := by
  have hs := hp e he
  cases e with
  | publish r | store r => exact trivial
  | _ => cases hs

theorem resultOf_retire (submit : SubmitContext) (r : Result) (hnone : resultOf h submit.sequence.toNat = none) :
    resultOf (h ++ [.retire submit r]) = update (resultOf h) submit.sequence.toNat (some r) := by
  funext n
  rw [resultOf_append]
  by_cases hn : n = submit.sequence.toNat
  · rw [hn, update_self, hnone]
    simp [resultOf, Effect.result]
  · rw [update_of_ne hn]
    have hp : resultOf [.retire submit r] n = none := by simp [resultOf, Effect.result, Ne.symm hn]
    rw [hp, or_none]

theorem submitFlags_release (t : DeviceFifo.Trigger) : submitFlags t &&& submitRelease ≠ 0 ↔ signals t = true := by
  rw [submitFlags, signals]
  cases t.read <;> dsimp only <;> decide

end History

/-! ## The kernel and what was decided -/

/-- The kernel has completed what the history `h` says, and `bound` bounds the numbers of its submissions. -/
structure Ordered (bound : Nat) (k : Kernel) (h : List Effect) : Prop where
  books : Books (-1) k
  agrees : Agrees (resultOf h) k.transport.scoreboard.scoreboard
  lawful : Justified Allowed h
  front : advances h + 1 = k.transport.scoreboard.scoreboard.nextSequence.toNat
  past : ∀ n, (resultOf h n).isSome → 0 < n ∧ n ≤ bound
  requests : ∀ i < k.transport.capacity, (k.transport.requests i).state ≠ .free →
    0 < (k.transport.requests i).submit.sequence.toNat ∧ (k.transport.requests i).submit.sequence.toNat ≤ bound
  published : ∀ n r, resultOf h n = some r → r ≠ .success → Published h
  hands : ∀ s t c, .hand s t c true ∈ h → s.sequence.toNat ≤ bound

section Ordered
variable {bound : Nat} {k k' : Kernel} {h p : List Effect}

section

variable (ho : Ordered bound k h)
include ho

theorem Ordered.mono {bound' : Nat} (hle : bound ≤ bound') : Ordered bound' k h :=
  { ho with
    past := fun n hn => ⟨(ho.past n hn).1, (ho.past n hn).2.trans hle⟩
    requests := fun i hi hlive => ⟨(ho.requests i hi hlive).1, (ho.requests i hi hlive).2.trans hle⟩
    hands := fun s t c hmem => (ho.hands s t c hmem).trans hle }

theorem Ordered.shrink (hb : Books (-1) k') (hs : Shrinks k k') (hsb : k'.transport.scoreboard = k.transport.scoreboard) :
    Ordered bound k' h :=
  { ho with
    books := hb
    agrees := hsb ▸ ho.agrees
    front := hsb ▸ ho.front
    requests := fun i hi hlive => by
      have hstays := hs.live i hlive
      rw [hstays.submit]
      exact ho.requests i (hs.capacity ▸ hi) (hstays.state ▸ hlive) }

theorem Ordered.append (hlawful : Justified Allowed (h ++ p)) (ha : advances p = 0) (hr : ∀ n, resultOf p n = none)
    (hhands : ∀ s t c, .hand s t c true ∉ p) : Ordered bound k (h ++ p) := by
  have hresult : resultOf (h ++ p) = resultOf h := by
    funext n
    rw [resultOf_append, hr n, or_none]
  refine ⟨ho.books, hresult ▸ ho.agrees, hlawful, ?_, hresult ▸ ho.past, ho.requests, ?_, fun s t c hmem => ?_⟩
  · rw [advances_append, ha]
    exact ho.front
  · intro n r hn hne
    rw [hresult] at hn
    exact (ho.published n r hn hne).append p
  · exact ho.hands s t c ((mem_append.1 hmem).resolve_right (hhands s t c))

theorem Ordered.silent (hp : Silent p) : Ordered bound k (h ++ p) := by
  obtain ⟨-, -, ha, hr⟩ := hp.counts
  exact ho.append (ho.lawful.append_idle fun e he pre => hp.allowed he pre) ha hr fun s t c hmem => nomatch hp _ hmem

theorem Ordered.advances_le : advances h ≤ bound := by
  rcases Nat.eq_zero_or_pos (advances h) with hzero | hpos
  · rw [hzero]
    exact Nat.zero_le _
  · refine (ho.past _ (ho.agrees.isSome hpos ?_)).2
    have := ho.front
    omega

theorem Ordered.advance_zero (hbound : bound ≤ consumes h) : Ordered bound k (h ++ [.advance 0]) := by
  refine ho.append (ho.lawful.concat ⟨ho.advances_le.trans hbound, ?_, fun m hm hm' => absurd hm (not_lt.2 hm')⟩) rfl
    (fun _ => rfl) (by simp)
  rw [add_zero, ho.front]
  exact ho.agrees.next_none

/-- **A completion is recorded**, its error published, and `completed` advanced. -/
theorem Ordered.record (hbound : bound ≤ consumes h) {submit : SubmitContext} {r : Result}
    (hpos : 0 < submit.sequence.toNat) (hle : submit.sequence.toNat ≤ bound)
    (hok : (trackCompletion k.transport.scoreboard submit r).1 = .success) (hb : Books (-1) k') (hs : Shrinks k k')
    (hsb : k'.transport.scoreboard = (trackCompletion k.transport.scoreboard submit r).2.2) (hp : Silent p)
    (hfailed : r ≠ .success → .publish r ∈ p) :
    Ordered bound k' (h ++ retired submit r ++ p ++ [.advance (trackCompletion k.transport.scoreboard submit r).2.1]) := by
  obtain ⟨hconsumes, -, hadvances, hresults⟩ := hp.counts
  rcases ho.agrees.completion submit r with ⟨hne, -⟩ | ⟨hwait, rfl⟩ | ⟨-, hr, hnone, hagrees, hnext⟩
  · exact absurd hok hne
  · -- no final result: nothing is recorded
    rw [hwait] at hsb ⊢
    rw [retired, if_pos rfl, append_nil]
    refine ((ho.shrink hb hs hsb).silent hp).advance_zero ?_
    rw [consumes_append, hconsumes]
    exact hbound
  rw [retired, if_neg hr]
  generalize (trackCompletion k.transport.scoreboard submit r).2.1 = n at hnext ⊢
  rw [← hsb] at hagrees hnext
  have hresult : resultOf (h ++ [.retire submit r] ++ p) = update (resultOf h) submit.sequence.toNat (some r) := by
    funext m
    rw [resultOf_append, hresults m, or_none, resultOf_retire submit r hnone]
  have hlast : resultOf (h ++ [.retire submit r] ++ p ++ [.advance n]) = resultOf (h ++ [.retire submit r] ++ p) := by
    funext m
    rw [resultOf_append]
    exact or_none
  have hcount : advances (h ++ [.retire submit r] ++ p) = advances h := by
    rw [advances_append, advances_append, hadvances]
    rfl
  have hpast : ∀ m, (update (resultOf h) submit.sequence.toNat (some r) m).isSome → 0 < m ∧ m ≤ bound := by
    intro m hm
    by_cases he : m = submit.sequence.toNat
    · rw [he]
      exact ⟨hpos, hle⟩
    · rw [update_of_ne he] at hm
      exact ho.past m hm
  have hpublished : ∀ m r', update (resultOf h) submit.sequence.toNat (some r) m = some r' → r' ≠ .success →
      Published (h ++ [.retire submit r] ++ p) := by
    intro m r' hm hne
    by_cases he : m = submit.sequence.toNat
    · rw [he, update_self] at hm
      cases hm
      exact ⟨r, by simp [isTerminal, hr, hne], mem_append_right _ (hfailed hne)⟩
    · rw [update_of_ne he] at hm
      exact ((ho.published m r' hm hne).append _).append _
  have hfront := ho.front
  -- all that `completed` is advanced over has a result
  have hallowed : Allowed (h ++ [.retire submit r] ++ p) (.advance n) := by
    have hsome : ∀ m, 0 < m → m ≤ advances h + n → (update (resultOf h) submit.sequence.toNat (some r) m).isSome :=
      fun m hm hm' => hagrees.isSome hm (by omega)
    refine ⟨?_, ?_, fun m hm hm' => ?_⟩
    · rw [hcount, consumes_append, consumes_append, hconsumes]
      rcases Nat.eq_zero_or_pos (advances h + n) with hzero | hpos'
      · omega
      · have := (hpast _ (hsome _ hpos' le_rfl)).2
        omega
    · have hfirst : advances h + n + 1 = k'.transport.scoreboard.scoreboard.nextSequence.toNat := by omega
      rw [hcount, hresult, hfirst]
      exact hagrees.next_none
    · rw [hcount] at hm hm'
      obtain ⟨r', hr'⟩ := isSome_iff_exists.1 (hsome m (by omega) hm')
      exact ⟨r', by rw [hresult]; exact hr', hpublished m r' hr'⟩
  refine ⟨hb, ?_, ?_, ?_, ?_, fun i hi hlive => ?_, ?_, fun s t c hmem => ?_⟩
  · rw [hlast, hresult]
    exact hagrees
  · refine Justified.concat (Justified.append_idle (ho.lawful.concat ?_) fun e he pre => hp.allowed he pre) hallowed
    exact ⟨hnone, hr⟩
  · rw [advances_append, hcount, hnext, ← hfront]
    show advances h + (n + 0) + 1 = _
    omega
  · rw [hlast, hresult]
    exact hpast
  · have hstays := hs.live i hlive
    rw [hstays.submit]
    exact ho.requests i (hs.capacity ▸ hi) (hstays.state ▸ hlive)
  · intro m r' hm hne
    rw [hlast, hresult] at hm
    exact (hpublished m r' hm hne).append _
  · have hold : .hand s t c true ∈ h := by
      simp only [mem_append, mem_singleton, reduceCtorEq, or_false] at hmem
      exact hmem.resolve_right fun hin => nomatch hp _ hin
    exact ho.hands s t c hold

end

end Ordered

/-! ## Polling -/

section Poll
variable {bound i : Nat} {k : Kernel} {h : List Effect}

theorem releaseIfAny_transport (k : Kernel) (slot : Int) : (k.releaseIfAny slot).2.transport = k.transport := by
  rw [Kernel.releaseIfAny]
  split_ifs
  · rw [Kernel.releaseStagingSlot]
    split_ifs <;> rfl
  · rfl

theorem abort_scoreboard (k : Kernel) (i : Nat) : (k.abort i).transport.scoreboard = k.transport.scoreboard := by
  have hout : (k.transport.abortRequest i).2.scoreboard = k.transport.scoreboard := by
    have hkeeps := removeGetVisibilitySequence_keeps k.transport i
    rw [abortRequest]
    dsimp only
    split_ifs
    · rfl
    · exact hkeeps.scoreboard
    · exact hkeeps.scoreboard
  rw [Kernel.abort]
  split_ifs
  · rw [releaseIfAny_transport]
    exact hout
  · exact hout

section

variable (ho : Ordered bound k h) (hi : i < k.transport.capacity)
include ho hi

theorem Ordered.abort (r : Result) : Ordered bound (k.abort i) (h ++ [.publish r]) := by
  obtain ⟨hb, hs⟩ := ho.books.abort hi
  exact (ho.shrink hb hs (abort_scoreboard k i)).silent (silent_publish r)

theorem Ordered.progress (hposted : (k.transport.requests i).state = .posted) (data flush : TestAnswer) (post : PostAnswer) :
    Ordered bound { k with transport := (k.transport.progressRequest i data flush post).transport } h :=
  have hkeeps := progressRequest_keeps k.transport i data flush post
  ho.shrink (ho.books.progress hi hposted data flush post) hkeeps.shrinks hkeeps.scoreboard

theorem Ordered.pollData (a : Kernel.Answers) : Ordered bound (k.pollData i a).1 (h ++ (k.pollData i a).2) := by
  rw [Kernel.pollData]
  by_cases hawaits : Kernel.awaitsData (k.transport.requests i) = true
  · have hposted : (k.transport.requests i).state = .posted := by
      rw [Kernel.awaitsData, Bool.and_eq_true, Bool.and_eq_true, beq_iff_eq] at hawaits
      exact hawaits.1.1
    rw [if_pos hawaits]
    exact (ho.progress hi hposted a.data a.flush a.post).silent (silent_failed _)
  · rw [if_neg hawaits, append_nil]
    exact ho

end

section

variable (ho : Ordered bound k h) (hbound : bound ≤ consumes h) (hi : i < k.transport.capacity)
include ho hbound hi

theorem Ordered.complete (hposted : (k.transport.requests i).state = .posted)
    (hvis : ∀ d q, k.transport.place i = some (d, q) → q ≤ (k.transport.domains d).visibleGetSequence) (r : Result) :
    Ordered bound (k.complete i r).1 (h ++ (k.complete i r).2) := by
  obtain ⟨hb, hs⟩ := ho.books.complete hi hvis r
  obtain ⟨hpos, hle⟩ := ho.requests i hi (by rw [hposted]; decide)
  have hdone : (k.transport.completeRequest i r).1 = .success →
      (trackCompletion k.transport.scoreboard (k.transport.requests i).submit r).1 = .success ∧
      (k.transport.completeRequest i r).2.scoreboard =
        (trackCompletion k.transport.scoreboard (k.transport.requests i).submit r).2.2 := by
    rw [completeRequest]
    dsimp only
    split_ifs with hrefused htrack
    · rintro ⟨⟩
    · exact fun hok => absurd hok htrack
    · exact fun _ => ⟨not_not.1 htrack, rfl⟩
  have hsame : (k.transport.completeRequest i r).1 ≠ .success → (k.transport.completeRequest i r).2 = k.transport := by
    rw [completeRequest]
    dsimp only
    split_ifs with hrefused htrack
    · exact fun _ => rfl
    · intro _
      rcases trackCompletion_cases k.transport.scoreboard (k.transport.requests i).submit r with ⟨-, he⟩ | ⟨he, -⟩ | ⟨he, -⟩
      · rw [he]
      · exact absurd (congrArg Prod.fst he) htrack
      · exact absurd he htrack
    · exact fun hne => absurd rfl hne
  rw [Kernel.complete] at hb hs ⊢
  by_cases hok : (k.transport.completeRequest i r).1 = .success
  swap
  · rw [if_pos hok, hsame hok]
    exact ho.abort hi _
  rw [if_neg (not_not.2 hok)] at hb hs ⊢
  obtain ⟨htrack, hsb⟩ := hdone hok
  have hrecord := ho.record hbound hpos hle htrack hb hs ((releaseIfAny_transport ..).symm ▸ hsb)
    ((silent_failed (Kernel.releaseIfAny { k with transport := (k.transport.completeRequest i r).2 }
      (k.transport.requests i).stagingSlot).1).append (silent_failed r)) fun hne => mem_append_right _ (mem_failed hne)
  simpa only [append_assoc, Kernel.advanced] using hrecord

theorem Ordered.pollRequest (a : Kernel.Answers) : Ordered bound (k.pollRequest i a).1 (h ++ (k.pollRequest i a).2) := by
  rw [Kernel.pollRequest]
  by_cases hposted : (k.transport.requests i).state = .posted
  swap
  · rw [if_pos hposted, append_nil]
    exact ho
  rw [if_neg (not_not.2 hposted)]
  have hkeeps := progressRequest_keeps k.transport i a.data a.flush a.post
  have ho' := ho.progress hi hposted a.data a.flush a.post
  have hi' : i < (k.transport.progressRequest i a.data a.flush a.post).transport.capacity := hkeeps.capacity ▸ hi
  by_cases hres : (k.transport.progressRequest i a.data a.flush a.post).result = .success
  · rw [if_neg (not_not.2 hres)]
    by_cases hready : (k.transport.progressRequest i a.data a.flush a.post).ready = true
    · rw [if_pos hready]
      exact ho'.complete hbound hi' ((hkeeps.state i).trans hposted) (progressRequest_ready ho.books.sound hi hposted hres hready) _
    · rw [if_neg hready, append_nil]
      exact ho'
  · rw [if_pos hres]
    exact ho'.abort hi' _

end

theorem Ordered.pollAll (turn : Kernel → Nat → Kernel × List Effect) (hbooks : ∀ {k : Kernel} {i : Nat}, Books (-1) k →
      i < k.transport.capacity → Books (-1) (turn k i).1 ∧ Shrinks k (turn k i).1)
    (hturn : ∀ {k : Kernel} {h : List Effect} {i : Nat}, Ordered bound k h → bound ≤ consumes h → i < k.transport.capacity →
      Ordered bound (turn k i).1 (h ++ (turn k i).2))
    (is : List Nat) (ho : Ordered bound k h) (hbound : bound ≤ consumes h) (his : ∀ i ∈ is, i < k.transport.capacity) :
    Ordered bound (Kernel.pollAll turn is k).1 (h ++ (Kernel.pollAll turn is k).2) := by
  induction is generalizing k h with
  | nil =>
    rw [Kernel.pollAll, append_nil]
    exact ho
  | cons i is ih =>
    have hi := his i mem_cons_self
    have hs := (hbooks ho.books hi).2
    have hbound' : bound ≤ consumes (h ++ (turn k i).2) := by
      rw [consumes_append]
      omega
    rw [Kernel.pollAll]
    rw [← append_assoc]
    exact ih (hturn ho hbound hi) hbound' fun j hj => by rw [hs.capacity]; exact his j (mem_cons_of_mem i hj)

/-- **A poll completes in order.** -/
theorem Ordered.poll (ho : Ordered bound k h) (hbound : bound ≤ consumes h) (canTest : Bool)
    (first second : Nat → Kernel.Answers) :
    Ordered bound (k.poll canTest first second).1 (h ++ (k.poll canTest first second).2) := by
  rw [Kernel.poll]
  split_ifs
  · rw [append_nil]
    exact ho
  have hdata := Ordered.pollAll (fun k i => k.pollData i (first i)) (fun hb hi => hb.pollData hi _)
    (fun ho _ hi => ho.pollData hi _) (range k.transport.capacity) ho hbound fun i hi => mem_range.1 hi
  obtain ⟨-, hs⟩ := Books.pollAll (fun k i => k.pollData i (first i)) (fun hb hi => hb.pollData hi _)
    (range k.transport.capacity) ho.books fun i hi => mem_range.1 hi
  rw [← append_assoc]
  refine Ordered.pollAll (fun k i => k.pollRequest i (second i)) (fun hb hi => hb.pollRequest hi _)
    (fun ho hle hi => ho.pollRequest hle hi _) _ hdata ?_ fun i hi => ?_
  · rw [consumes_append]
    omega
  · rw [hs.capacity]
    exact mem_range.1 hi

def Effect.polled : Effect → Bool
  | .retire .. | .publish _ | .advance _ => true
  | _ => false

theorem polled_failed (r : Result) : ∀ e ∈ failed r, e.polled = true := by
  rw [failed]
  split_ifs <;> simp [Effect.polled]

theorem polled_retired (submit : SubmitContext) (r : Result) : ∀ e ∈ retired submit r, e.polled = true := by
  rw [retired]
  split_ifs <;> simp [Effect.polled]

theorem polled_pollRequest (k : Kernel) (i : Nat) (a : Kernel.Answers) : ∀ e ∈ (k.pollRequest i a).2, e.polled = true := by
  have hone : ∀ r, ∀ e ∈ [Effect.publish r], e.polled = true := by simp [Effect.polled]
  rw [Kernel.pollRequest]
  dsimp only
  split_ifs
  · simp
  · exact hone _
  · rw [Kernel.complete]
    split_ifs
    · exact hone _
    · simp only [mem_append]
      rintro e (((he | he) | he) | he)
      · exact polled_retired _ _ e he
      · exact polled_failed _ e he
      · exact polled_failed _ e he
      · rw [mem_singleton.1 he]
        rfl
  · simp

theorem polled_pollAll {turn : Kernel → Nat → Kernel × List Effect}
    (hturn : ∀ k i, ∀ e ∈ (turn k i).2, e.polled = true) (is : List Nat) (k : Kernel) :
    ∀ e ∈ (Kernel.pollAll turn is k).2, e.polled = true := by
  induction is generalizing k with
  | nil => exact nofun
  | cons i is ih =>
    intro e he
    exact (mem_append.1 he).elim (hturn k i e) (ih _ e)

theorem polled_poll (k : Kernel) (canTest : Bool) (first second : Nat → Kernel.Answers) :
    ∀ e ∈ (k.poll canTest first second).2, e.polled = true := by
  rw [Kernel.poll]
  split_ifs
  · simp
  intro e he
  rcases mem_append.1 he with he | he
  · refine polled_pollAll (fun k i => ?_) _ _ e he
    rw [Kernel.pollData]
    split_ifs
    · exact polled_failed _
    · simp
  · exact polled_pollAll (fun k i => polled_pollRequest k i _) _ _ e he

theorem counts_polled {p : List Effect} (hp : ∀ e ∈ p, e.polled = true) : consumes p = 0 ∧ takes p = [] := by
  constructor
  · exact count_eq_zero.2 fun hmem => nomatch hp _ hmem
  · refine filterMap_eq_nil_iff.2 fun e he => ?_
    have hpolled := hp e he
    cases e with
    | take t => cases hpolled
    | _ => rfl

end Poll

end FlagCX.KernelProxy
