import FlagCX.Net.ProxyRecv
import FlagCX.Net.ProxySend

/-!
# The network pipelines move every chunk once and in order

* `MovesOnce` : what is promised of the trace of a pipeline, for the events it allows and the stages it passes.
* `Sent.movesOnce`, `Received.movesOnce` : the traces of the two pipelines keep the promise.
* `pipelines_move_once` : every run does, when the chunks of the operation fit an `int`; and `done` is set by the first
  call that finds all of them finished.
* `pipelines_move_once_counterexample` : a chunk of `2 ^ 31` bytes is posted with another length.
-/

namespace FlagCX.Net.Proxy
open Lib List Option

/-- The promise on a trace: every event is allowed, the stages `inOrder` take the chunks one after the other, no chunk
completes twice, the scoreboard refuses nothing, and the semaphore is told once, when every chunk has passed all of
them. -/
structure MovesOnce (allowed : List Event → Event → Prop) (inOrder : List Stage) (steps : Nat) (s : ProxyArgs) : Prop where
  justified : Justified allowed s.trace
  next : ∀ stage ∈ inOrder, ∃ n ≤ steps, seen stage s.trace = range n
  completed : (seen .completed s.trace).Nodup ∧ ∀ k ∈ seen .completed s.trace, k < steps
  notRefused : ∀ result, .refused result ∉ s.trace
  counted : s.trace.count .subCounter = if s.done then 1 else 0
  finished : s.done = true → (∀ stage ∈ inOrder, seen stage s.trace = range steps) ∧
    (seen .completed s.trace).Perm (range steps)

/-! ## The promise from the events -/

section
variable {P : List Event → Event → Prop} {stage : Stage} {trace : List Event} {steps : Nat}

theorem range_of_next (h : Justified P trace)
    (hnext : ∀ pre e k, P pre e → e.chunkAt stage = some k → k = (seen stage pre).length)
    (hlt : ∀ k ∈ seen stage trace, k < steps) : ∃ n ≤ steps, seen stage trace = range n := by
  have hrange := seen_eq_range h hnext
  refine ⟨_, ?_, hrange⟩
  by_contra hgt
  have hmem : steps ∈ seen stage trace := by
    rw [hrange, mem_range]
    omega
  exact lt_irrefl _ (hlt _ hmem)

theorem range_eq_of_all (h : ∃ n ≤ steps, seen stage trace = range n) (hall : ∀ k < steps, k ∈ seen stage trace) :
    seen stage trace = range steps := by
  obtain ⟨n, hn, hrange⟩ := h
  have : n = steps := by
    by_contra hne
    have := hall n (by omega)
    rw [hrange, mem_range] at this
    exact lt_irrefl _ this
  rw [hrange, this]

theorem perm_range_of_all (hnodup : (seen stage trace).Nodup) (hlt : ∀ k ∈ seen stage trace, k < steps)
    (hall : ∀ k < steps, k ∈ seen stage trace) : (seen stage trace).Perm (range steps) := by
  rw [perm_ext_iff_of_nodup hnodup nodup_range]
  intro k
  rw [mem_range]
  exact ⟨hlt k, hall k⟩

end

variable {k : Nat}

section Send
variable {op : Op} {base : Nat} {s : ProxyArgs}

theorem Sent.staged_of_posted (h : Sent op base s) (hk : k ∈ seen .posted s.trace) : k ∈ seen .staged s.trace := by
  refine seen_before h.allowed (fun pre e k he hat => ?_) hk
  cases e <;> simp only [Event.chunkAt, some.injEq, reduceCtorEq] at hat
  subst hat
  exact he.2.1

theorem Sent.lt_of_staged (h : Sent op base s) (hk : k ∈ seen .staged s.trace) : k < op.steps := by
  obtain ⟨-, -, hq⟩ := of_mem_seen (Q := fun _ k => k < op.steps) h.allowed (fun pre e k he hat => by
    cases e <;> simp only [Event.chunkAt, some.injEq, reduceCtorEq] at hat
    subst hat
    exact he.2.1) hk
  exact hq

theorem Sent.movesOnce (h : Sent op base s) : MovesOnce (SendAllowed op base) [.staged, .posted] op.steps s := by
  have hstaged : ∃ n ≤ op.steps, seen .staged s.trace = range n := by
    refine range_of_next h.allowed (fun pre e k he hat => ?_) fun k hk => h.lt_of_staged hk
    cases e <;> simp only [Event.chunkAt, some.injEq, reduceCtorEq] at hat
    subst hat
    exact he.1
  have hposted : ∃ n ≤ op.steps, seen .posted s.trace = range n := by
    refine range_of_next h.allowed (fun pre e k he hat => ?_) fun k hk => h.lt_of_staged (h.staged_of_posted hk)
    cases e <;> simp only [Event.chunkAt, some.injEq, reduceCtorEq] at hat
    subst hat
    exact he.1
  have hnodup : (seen .completed s.trace).Nodup := by
    refine seen_nodup h.allowed fun pre e k he hat => ?_
    cases e <;> simp only [Event.chunkAt, some.injEq, reduceCtorEq] at hat
    subst hat
    exact he.2
  have hlt : ∀ k ∈ seen .completed s.trace, k < op.steps := fun k hk =>
    h.lt_of_staged (h.staged_of_posted (h.posted_of_completed hk))
  refine ⟨h.allowed, ?_, ⟨hnodup, hlt⟩, ?_, h.counted, fun hdone => ?_⟩
  · simpa using ⟨hstaged, hposted⟩
  · intro result hmem
    obtain ⟨pre, post, -, hfalse⟩ := h.allowed.of_mem hmem
    exact hfalse
  · have hcount := h.counted
    rw [if_pos hdone] at hcount
    obtain ⟨pre, post, htrace, -, hpre⟩ := h.allowed.of_mem (count_pos_iff.1 (by omega : 0 < s.trace.count .subCounter))
    have hall : ∀ k < op.steps, k ∈ seen .completed s.trace := fun k hk => by
      rw [htrace]
      exact seen_mono (subset_append_left _ _) (hpre k hk)
    refine ⟨?_, perm_range_of_all hnodup hlt hall⟩
    simp only [forall_mem_cons, not_mem_nil, IsEmpty.forall_iff, implies_true, and_true]
    exact ⟨range_eq_of_all hstaged fun k hk => h.staged_of_posted (h.posted_of_completed (hall k hk)),
      range_eq_of_all hposted fun k hk => h.posted_of_completed (hall k hk)⟩

end Send

section Receive
variable {op : Op} {s : ProxyArgs}

section

variable (h : Received op s)
include h

theorem Received.lt_of_posted (hk : k ∈ seen .posted s.trace) : k < op.steps := by
  obtain ⟨-, -, hq⟩ := of_mem_seen (Q := fun _ k => k < op.steps) h.allowed (fun pre e k he hat => by
    cases e <;> simp only [Event.chunkAt, some.injEq, reduceCtorEq] at hat
    subst hat
    exact he.2.1) hk
  exact hq

theorem Received.completed_of_flushed (hk : k ∈ seen .flushed s.trace) : k ∈ seen .completed s.trace :=
  seen_before h.allowed (fun pre e k he hat => by
    cases e <;> simp only [Event.chunkAt, some.injEq, reduceCtorEq] at hat
    subst hat
    exact he.2) hk

theorem Received.flushed_of_copied (hk : k ∈ seen .copied s.trace) : k ∈ seen .flushed s.trace := by
  obtain ⟨pre, e, post, htrace, hat⟩ := mem_seen_split hk
  have he := h.allowed pre e post htrace
  cases e <;> simp only [Event.chunkAt, some.injEq, reduceCtorEq] at hat
  subst hat
  have hmem := he.2.1
  have hpre : Justified (RecvAllowed op) pre := by
    have hall := h.allowed
    rw [htrace] at hall
    exact hall.of_append
  obtain ⟨pre', post', hsplit, hflushed⟩ := hpre.of_mem hmem
  rw [htrace, hsplit]
  exact seen_mono (by simp) hflushed

theorem Received.copied_of_retired (hk : k ∈ seen .retired s.trace) : k ∈ seen .copied s.trace :=
  seen_before h.allowed (fun pre e k he hat => by
    cases e <;> simp only [Event.chunkAt, some.injEq, reduceCtorEq] at hat
    subst hat
    exact he.2.1) hk

end

theorem RecvAllowed.next {pre : List Event} {e : Event} {stage : Stage}
    (hstage : stage ∈ [Stage.posted, .flushed, .copied, .retired]) (he : RecvAllowed op pre e)
    (hat : e.chunkAt stage = some k) : k = (seen stage pre).length := by
  simp only [mem_cons, not_mem_nil, or_false] at hstage
  rcases hstage with rfl | rfl | rfl | rfl <;>
    cases e <;> simp only [Event.chunkAt, some.injEq, reduceCtorEq] at hat <;> subst hat <;> exact he.1

theorem Received.movesOnce (h : Received op s) :
    MovesOnce (RecvAllowed op) [.posted, .flushed, .copied, .retired] op.steps s := by
  have hcompleted : ∀ k ∈ seen .completed s.trace, k < op.steps := fun k hk => h.lt_of_posted (h.posted_of_completed hk)
  have hflushed : ∀ k ∈ seen .flushed s.trace, k < op.steps := fun k hk => hcompleted k (h.completed_of_flushed hk)
  have hcopied : ∀ k ∈ seen .copied s.trace, k < op.steps := fun k hk => hflushed k (h.flushed_of_copied hk)
  have hretired : ∀ k ∈ seen .retired s.trace, k < op.steps := fun k hk => hcopied k (h.copied_of_retired hk)
  have hnext : ∀ stage ∈ [Stage.posted, .flushed, .copied, .retired],
      ∃ n ≤ op.steps, seen stage s.trace = range n := by
    intro stage hstage
    refine range_of_next h.allowed (fun pre e k he hat => he.next hstage hat) ?_
    simp only [mem_cons, not_mem_nil, or_false] at hstage
    rcases hstage with rfl | rfl | rfl | rfl
    · exact fun k hk => h.lt_of_posted hk
    · exact hflushed
    · exact hcopied
    · exact hretired
  have hnodup : (seen .completed s.trace).Nodup := by
    refine seen_nodup h.allowed fun pre e k he hat => ?_
    cases e <;> simp only [Event.chunkAt, some.injEq, reduceCtorEq] at hat
    subst hat
    exact he.2
  refine ⟨h.allowed, hnext, ⟨hnodup, hcompleted⟩, ?_, h.counted, fun hdone => ?_⟩
  · intro result hmem
    obtain ⟨pre, post, -, hfalse⟩ := h.allowed.of_mem hmem
    exact hfalse
  · have hcount := h.counted
    rw [if_pos hdone] at hcount
    obtain ⟨pre, post, htrace, -, hpre⟩ := h.allowed.of_mem (count_pos_iff.1 (by omega : 0 < s.trace.count .subCounter))
    have hall : ∀ k < op.steps, k ∈ seen .retired s.trace := fun k hk => by
      rw [htrace]
      exact seen_mono (subset_append_left _ _) (hpre k hk)
    have hall₁ := fun k hk => h.copied_of_retired (hall k hk)
    have hall₂ := fun k hk => h.flushed_of_copied (hall₁ k hk)
    have hall₃ := fun k hk => h.completed_of_flushed (hall₂ k hk)
    refine ⟨fun stage hstage => range_eq_of_all (hnext stage hstage) ?_, perm_range_of_all hnodup hcompleted hall₃⟩
    simp only [mem_cons, not_mem_nil, or_false] at hstage
    rcases hstage with rfl | rfl | rfl | rfl
    · exact fun k hk => h.posted_of_completed (hall₃ k hk)
    · exact hall₂
    · exact hall₁
    · exact hall

end Receive

/-! ## The contract -/

/-- **Both pipelines move every chunk once and in order, and then tell the semaphore once**, up to the first call that fails.
-/
theorem pipelines_move_once {op : Op} (hfit : op.Fits) :
    (∀ base s₀, SendStart op base s₀ → ∀ calls,
      let out := sendRun op calls s₀
      MovesOnce (SendAllowed op base) [.staged, .posted] op.steps out.2 ∧
        (out.1 = none → (∀ k < op.steps, k ∈ seen .completed out.2.trace) →
          ∀ ans, ans.pollStart = true → (proxySend op ans out.2).2.done = true)) ∧
    ∀ generation orderingKey submitFlags groups s₀,
      prepareProxyOp op generation orderingKey submitFlags groups = .ok s₀ → ∀ kind calls,
      let out := recvRun op kind calls s₀
      MovesOnce (RecvAllowed op) [.posted, .flushed, .copied, .retired] op.steps out.2 ∧
        (out.1 = none → (∀ k < op.steps, k ∈ seen .retired out.2.trace) →
          ∀ ans, ans.pollStart = true → (proxyRecv op kind ans out.2).2.done = true) := by
  refine ⟨fun base s₀ hstart calls => ?_, fun generation orderingKey submitFlags groups s₀ hstart kind calls => ?_⟩
  · have hrun := sendRun_spec hstart hfit calls
    unfold Body.Post at hrun
    intro out
    cases hout : out.1 with
    | none =>
      rw [hout] at hrun
      exact ⟨hrun.sent.movesOnce, fun _ hall ans hopen => hrun.proxySend_done ans hopen hall⟩
    | some r =>
      rw [hout] at hrun
      exact ⟨hrun.movesOnce, fun hnone => absurd hnone (by simp)⟩
  · have hrun := recvRun_spec hstart hfit kind calls
    unfold Body.Post at hrun
    intro out
    cases hout : out.1 with
    | none =>
      rw [hout] at hrun
      exact ⟨hrun.received.movesOnce, fun _ hall ans hopen => hrun.proxyRecv_done kind ans hopen hall⟩
    | some r =>
      rw [hout] at hrun
      exact ⟨hrun.movesOnce, fun hnone => absurd hnone (by simp)⟩

def fiveBytes : Op where
  size := 5
  chunkSize := 2
  chunks := 2
  regBufFlag := false
  size_lt := by decide
  chunkSize_pos := by decide
  chunkSize_lt := by decide
  chunks_pow := ⟨1, rfl⟩

/-- Everything is answered at once; the request of a post is `req`. -/
def promptSend (req : Nat) : SendAnswers :=
  { pollStart := true, deviceMemcpy := .success, eventRecord := .success, eventQuery := .success,
    isend := (.success, some req), test := fun _ => (.success, true) }

def preparedArgs (op : Op) : ProxyArgs := ProxyArgs.start op.chunkSteps
    { tracker := ⟨⟨fun _ => completionEntryReset, .ofNat op.chunks, 0, 1, 0, .success⟩,
        fun _ => ⟨0, 0, .opened, 0, 0, false, .success⟩⟩
      contexts := fun _ => ⟨0, 0, 0, 0, 0⟩, orderingKey := 1, generation := 1, nextSubmit := 0, submitFlags := submitData
      capacity := .ofNat op.chunks }

/-- Four prompt calls send the five bytes, and the trace keeps its promise. -/
theorem pipelines_move_once_fiveBytes :
    (sendRun fiveBytes ([7, 8, 9, 0].map promptSend) (preparedArgs fiveBytes)).2.done = true ∧
      MovesOnce (SendAllowed fiveBytes 0) [.staged, .posted] 3
        (sendRun fiveBytes ([7, 8, 9, 0].map promptSend) (preparedArgs fiveBytes)).2 := by
  refine ⟨by decide +kernel, ?_⟩
  exact ((pipelines_move_once (by decide)).1 0 _ (.own 1 1 0 (fun _ => ⟨0, 0, .opened, 0, 0, false, .success⟩) rfl) _).1

/-- One chunk of `2 ^ 31` bytes from a registered buffer. -/
def halfWord : Op where
  size := 2 ^ 31
  chunkSize := 2 ^ 31
  chunks := 1
  regBufFlag := true
  size_lt := by decide
  chunkSize_pos := by decide
  chunkSize_lt := by decide
  chunks_pow := ⟨0, rfl⟩

/-- The one chunk of the message has `2 ^ 31` bytes, and `isend` is given `2 ^ 64 - 2 ^ 31`. -/
theorem pipelines_move_once_counterexample :
    halfWord.length 0 = 2 ^ 31 ∧ SendStart halfWord 0 (preparedArgs halfWord) ∧
      (.posted 0 (.user 0) (2 ^ 64 - 2 ^ 31) 7 0) ∈ (sendRun halfWord [promptSend 7] (preparedArgs halfWord)).2.trace ∧
      ¬ MovesOnce (SendAllowed halfWord 0) [.staged, .posted] halfWord.steps
        (sendRun halfWord [promptSend 7] (preparedArgs halfWord)).2 := by
  have htrace : (sendRun halfWord [promptSend 7] (preparedArgs halfWord)).2.trace =
      [.staged 0 (.user 0) 0 (2 ^ 64 - 2 ^ 31), .posted 0 (.user 0) (2 ^ 64 - 2 ^ 31) 7 0, .completed 0 (.posted 7)] := by
    decide +kernel
  refine ⟨by decide, .own 1 1 0 (fun _ => ⟨0, 0, .opened, 0, 0, false, .success⟩) rfl, ?_, fun h => ?_⟩
  · rw [htrace]
    decide
  · obtain ⟨-, -, -, -, hlength, -⟩ := h.justified [] _ _ htrace
    exact absurd hlength (by decide)

end FlagCX.Net.Proxy
