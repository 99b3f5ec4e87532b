import FlagCX.Lib.Chunking
import FlagCX.Lib.EarlyReturn
import FlagCX.Lib.History
import FlagCX.Net.CollTransport

/-!
# Chunks of a network operation (`net.cc`)

What the send and the receive pipeline share.

* `Op` : the sizes of an operation.
* `SubArgs`, `Event` : a staging slot, and what a pipeline did to the chunks, in order.
* `seen`, `seen_eq_range` : the chunks a stage has seen. A stage that always takes the next chunk has seen a range.

Pointers are offsets into the user buffer or the staging buffer. The memory registrations, the streams and the kind of
each copy are left out.
-/

namespace FlagCX.Net.Proxy
open Lib List Option

/-! ## The operation -/

/-- The sizes of an operation (`op->nbytes` and `flagcxNetChunkSize`, which is also `args->chunkSize`), `flagcxNetChunks` and
`args->regBufFlag`. `op.chunkSteps` is `args->chunkSteps`. -/
structure Op extends Chunking where
  chunks : Nat
  regBufFlag : Bool
  chunks_pow : ∃ e, chunks = 2 ^ e

/-- `stepBuff`: a place in `resources->buffers[0]` or in the user's buffer. -/
inductive Buff where
  | staging (offset : Nat)
  | user (offset : Nat)
  deriving DecidableEq, Repr

namespace Op

def sendStepMask (op : Op) : Nat := op.chunks - 1

def stepBuff (op : Op) (step chunk : Nat) : Buff :=
  if op.regBufFlag then .user (op.chunkSize * chunk) else .staging (op.chunkSize * step)

def place (op : Op) (chunk : Nat) : Buff := op.stepBuff (chunk % op.chunks) chunk

theorem chunks_pos (op : Op) : 0 < op.chunks := by
  obtain ⟨e, he⟩ := op.chunks_pow
  rw [he]
  exact Nat.two_pow_pos e

theorem and_sendStepMask (op : Op) (k : Nat) : k &&& op.sendStepMask = k % op.chunks := by
  obtain ⟨e, he⟩ := op.chunks_pow
  rw [sendStepMask, he]
  exact Nat.and_two_pow_sub_one_eq_mod k e

end Op

/-! ## Slots and events -/

/-- `subs[slot].requests[0]`: null, the marker `0x1` of a chunk that needs no flush, or a request of the adaptor. -/
inductive Request where
  | null
  | marker
  | posted (id : Nat)
  deriving DecidableEq, Repr

/-- The fields of `flagcxProxySubArgs` that the two pipelines use. -/
structure SubArgs where
  stepSize : Int
  stepBuff : Buff
  request : Request
  deriving DecidableEq, Repr

/-- What a pipeline does to a chunk. `staged` : the copy to the slot was issued, or the slot points at the chunk of a
registered buffer; `settled` : its event has passed; `posted` : the adaptor accepted it; `completed` : its test says done;
`flushed`, `visible` : its flush was accepted, and is done, if it needs one; `copied` : the copy from the slot was issued, if
it needs one; `retired` : the scoreboard was told; `refused` : the scoreboard refused a call. -/
inductive Event where
  | staged (chunk : Nat) (buff : Buff) (offset length : Nat)
  | settled (chunk : Nat)
  | posted (chunk : Nat) (buff : Buff) (length request sequence : Nat)
  | completed (chunk : Nat) (request : Request)
  | flushed (chunk : Nat) (request : Option Nat)
  | visible (chunk : Nat)
  | copied (chunk : Nat) (buff : Buff) (offset length : Nat)
  | retired (chunk : Nat)
  | subCounter
  | refused (result : Result)
  deriving DecidableEq, Repr

inductive Stage where
  | staged
  | posted
  | completed
  | flushed
  | copied
  | retired
  deriving DecidableEq, Repr

def Event.chunkAt : Stage → Event → Option Nat
  | .staged, .staged k _ _ _ => some k
  | .posted, .posted k _ _ _ _ => some k
  | .completed, .completed k _ => some k
  | .flushed, .flushed k _ => some k
  | .copied, .copied k _ _ _ => some k
  | .retired, .retired k => some k
  | _, _ => none

def seen (stage : Stage) (trace : List Event) : List Nat := trace.filterMap (Event.chunkAt stage)

variable {k : Nat}

section Seen
variable {P : List Event → Event → Prop} {stage : Stage} {trace : List Event}

theorem seen_concat (stage : Stage) (trace : List Event) (e : Event) :
    seen stage (trace ++ [e]) = seen stage trace ++ (e.chunkAt stage).toList := by
  cases h : e.chunkAt stage <;> simp [seen, h]

theorem seen_idle {e : Event} (h : e.chunkAt stage = none) : seen stage (trace ++ [e]) = seen stage trace := by
  rw [seen_concat, h, Option.toList_none, append_nil]

theorem update_request (subs : Nat → SubArgs) (slot : Nat) (request : Request) (i : Nat) :
    (Function.update subs slot { subs slot with request := request } i).stepSize = (subs i).stepSize ∧
      (Function.update subs slot { subs slot with request := request } i).stepBuff = (subs i).stepBuff := by
  rw [Function.update_apply]
  split_ifs with hi <;> simp [hi]

theorem seen_eq_range (h : Justified P trace)
    (hP : ∀ pre e k, P pre e → e.chunkAt stage = some k → k = (seen stage pre).length) :
    seen stage trace = range (seen stage trace).length := by
  induction trace using reverseRecOn with
  | nil => rfl
  | append_singleton trace e ih =>
    have hpre : Justified P trace := h.of_append
    rw [seen_concat]
    cases he : e.chunkAt stage with
    | none => simpa using ih hpre
    | some k =>
      have hk := hP trace e k (h trace e [] rfl) he
      rw [toList_some, length_append, length_singleton, range_succ, ← ih hpre, ← hk]

theorem seen_nodup (h : Justified P trace)
    (hP : ∀ pre e k, P pre e → e.chunkAt stage = some k → k ∉ seen stage pre) : (seen stage trace).Nodup := by
  induction trace using reverseRecOn with
  | nil => exact nodup_nil
  | append_singleton trace e ih =>
    have hpre : Justified P trace := h.of_append
    rw [seen_concat]
    cases he : e.chunkAt stage with
    | none => simpa using ih hpre
    | some k =>
      have hk := hP trace e k (h trace e [] rfl) he
      rw [toList_some]
      refine List.Nodup.append (ih hpre) (nodup_singleton k) ?_
      rw [disjoint_singleton]
      exact hk

theorem seen_mono {trace' : List Event} (h : trace ⊆ trace') (hk : k ∈ seen stage trace) : k ∈ seen stage trace' := by
  obtain ⟨e, he, hat⟩ := mem_filterMap.1 hk
  exact mem_filterMap.2 ⟨e, h he, hat⟩

theorem mem_seen_split (hk : k ∈ seen stage trace) : ∃ pre e post, trace = pre ++ e :: post ∧ e.chunkAt stage = some k := by
  obtain ⟨e, he, hat⟩ := mem_filterMap.1 hk
  obtain ⟨pre, post, rfl⟩ := append_of_mem he
  exact ⟨pre, e, post, rfl, hat⟩

theorem of_mem_seen {Q : List Event → Nat → Prop} (h : Justified P trace)
    (hP : ∀ pre e k, P pre e → e.chunkAt stage = some k → Q pre k) (hk : k ∈ seen stage trace) :
    ∃ pre, pre ⊆ trace ∧ Q pre k := by
  obtain ⟨pre, e, post, rfl, hat⟩ := mem_seen_split hk
  exact ⟨pre, subset_append_left _ _, hP pre e k (h pre e post rfl) hat⟩

theorem seen_before {past : Stage} (h : Justified P trace)
    (hP : ∀ pre e k, P pre e → e.chunkAt stage = some k → k ∈ seen past pre) (hk : k ∈ seen stage trace) :
    k ∈ seen past trace := by
  obtain ⟨pre, hsub, hq⟩ := of_mem_seen (Q := fun pre k => k ∈ seen past pre) h hP hk
  exact seen_mono hsub hq

theorem mem_seen_iff_lt {n : Nat} (h : seen stage trace = range n) (k : Nat) : k ∈ seen stage trace ↔ k < n := by
  rw [h, mem_range]

end Seen

/-! ## Requests -/

/-- The chunks whose requests are done. -/
def finished (trace : List Event) (k : Nat) : Bool := decide (k ∈ seen .completed trace)

/-- What holds of the request of the slot that the chunk `k` was posted in. -/
def RequestOf (trace : List Event) (k : Nat) (request : Request) : Prop :=
  if finished trace k then request = .null
  else ∃ req buff length sequence, request = .posted req ∧ .posted k buff length req sequence ∈ trace

theorem finished_concat (trace : List Event) (e : Event) (h : e.chunkAt .completed = none) :
    finished (trace ++ [e]) = finished trace := by
  funext k
  simp [finished, seen_concat, h]

theorem finished_completed (trace : List Event) (k : Nat) (request : Request) :
    finished (trace ++ [.completed k request]) = Function.update (finished trace) k true := by
  funext j
  by_cases hj : j = k
  · simp [finished, seen_concat, Event.chunkAt, hj]
  · simp [finished, seen_concat, Event.chunkAt, hj]

theorem RequestOf.concat {trace : List Event} {request : Request} (h : RequestOf trace k request) (e : Event)
    (he : finished (trace ++ [e]) k = finished trace k) : RequestOf (trace ++ [e]) k request := by
  unfold RequestOf at h ⊢
  rw [he]
  split_ifs at h ⊢ with hf
  · exact h
  · obtain ⟨req, buff, length, sequence, hr, hmem⟩ := h
    exact ⟨req, buff, length, sequence, hr, mem_append_left _ hmem⟩

/-! ## The arguments of an operation -/

/-- The fields of `flagcxProxyArgs` that the two pipelines use, and of `resources` what the events were last recorded for:
`cpEvents step` is the chunk whose copy the event of the slot follows. -/
structure ProxyArgs where
  chunkSteps : Int
  subs : Nat → SubArgs
  cpEvents : Nat → Nat
  waitCopy : Nat
  posted : Nat
  copied : Nat
  postFlush : Nat
  transmitted : Nat
  netCompleted : Nat → Bool
  totalCopySize : Nat
  totalPostSize : Nat
  collTransport : CollTransport
  sequenceBase : UInt64
  done : Bool
  trace : List Event

namespace ProxyArgs

def setSub (s : ProxyArgs) (slot : Nat) (sub : SubArgs) : ProxyArgs := { s with subs := Function.update s.subs slot sub }

def log (s : ProxyArgs) (e : Event) : ProxyArgs := { s with trace := s.trace ++ [e] }

def start (chunkSteps : Int) (transport : CollTransport) : ProxyArgs :=
  { chunkSteps := chunkSteps, subs := fun _ => ⟨0, .staging 0, .null⟩, cpEvents := fun _ => 0, waitCopy := 0, posted := 0,
    copied := 0, postFlush := 0, transmitted := 0, netCompleted := fun _ => false, totalCopySize := 0,
    totalPostSize := 0, collTransport := transport, sequenceBase := 0, done := false, trace := [] }

/-- The part of a body that sets `done` and tells the semaphore. -/
def finish : Body Result ProxyArgs := fun s =>
  if s.done then (none, s) else (none, { s.log .subCounter with done := true })

/-- `FLAGCXCHECK` on an answer of an adaptor. -/
def check (result : Result) : Body Result ProxyArgs := fun s => if result.accepted then (none, s) else (some result, s)

/-- `FLAGCXCHECK` on an answer of the scoreboard. -/
def checkTracked (result : Result) : Body Result ProxyArgs := fun s =>
  if result = .success then (none, s) else (if result.accepted then none else some result, s.log (.refused result))

/-- `flagcxCollProxyCancel` with `FLAGCXCHECK`. -/
def cancelSubmit (submit : SubmitContext) : Body Result ProxyArgs := fun s =>
  let out := s.collTransport.cancel submit
  checkTracked out.1 { s with collTransport := out.2 }

/-- The event of a slot is queried (`flagcxTransportClassifyCompletion`); `passed` follows when it has passed. -/
def query (result : Result) (step : Nat) (passed : Body Result ProxyArgs) : Body Result ProxyArgs := fun s =>
  if result = .success then passed (s.log (.settled (s.cpEvents step)))
  else if result = .inProgress then (none, s)
  else (some result, s)

end ProxyArgs

/-! ## How an operation starts -/

/-- `flagcxNetPrepareProxyOp`, its part on the arguments. -/
def prepareProxyOp (op : Op) (generation orderingKey : UInt64) (submitFlags : UInt32) (groups : Nat → ReleaseGroup) :
    Except Result ProxyArgs := do
  let transport ← CollTransport.transportInit (.ofNat op.chunks) generation orderingKey submitFlags groups
  return ProxyArgs.start op.chunkSteps transport

section Start
variable {op : Op} {generation orderingKey sequence : UInt64} {submitFlags : UInt32} {groups : Nat → ReleaseGroup}
  {transport : CollTransport} {scoreboard : CompletionScoreboard} {fin : Nat → Bool}

theorem Op.chunks_word (op : Op) (hne : UInt32.ofNat op.chunks ≠ 0) : (UInt32.ofNat op.chunks).toNat = op.chunks := by
  obtain ⟨e, he⟩ := op.chunks_pow
  rw [UInt32.toNat_ofNat', he]
  by_cases hlt : e < 32
  · exact Nat.mod_eq_of_lt (Nat.pow_lt_pow_right (by decide) hlt)
  · refine absurd (UInt32.toNat_inj.1 ?_) hne
    rw [UInt32.toNat_ofNat', he]
    exact Nat.mod_eq_zero_of_dvd (Nat.pow_dvd_pow 2 (Nat.le_of_not_lt hlt))

section

variable (h : CollTransport.transportInit (.ofNat op.chunks) generation orderingKey submitFlags groups = .ok transport)
include h

theorem flight_init (hs : CompletionScoreboard.init (.ofNat op.chunks) generation sequence = .ok scoreboard) :
    Flight { transport with tracker := ⟨scoreboard, groups⟩, nextSubmit := sequence } op.chunks sequence.toNat 0 0 fin := by
  unfold CompletionScoreboard.init at hs
  split at hs
  · cases hs
  · rename_i hcap
    obtain ⟨hne, -⟩ := not_or.1 hcap
    obtain rfl := Except.ok.inj hs
    have hchunks := op.chunks_word hne
    unfold CollTransport.transportInit at h
    split at h
    · cases h
    · cases hi : CompletionScoreboard.init (.ofNat op.chunks) generation 0 with
      | error r =>
        rw [hi] at h
        cases h
      | ok own =>
        rw [hi] at h
        obtain rfl := Except.ok.inj h
        exact Flight.start rfl hchunks op.chunks_pos UInt64.ofNat_toNat.symm (UInt64.toNat_lt sequence) rfl rfl
          (fun _ => rfl) UInt64.ofNat_toNat.symm _

theorem transportInit_flight : Flight transport op.chunks 0 0 0 fin := by
  have h' := h
  unfold CollTransport.transportInit at h'
  split at h'
  · cases h'
  · cases hi : CompletionScoreboard.init (.ofNat op.chunks) generation 0 with
    | error r =>
      rw [hi] at h'
      cases h'
    | ok scoreboard =>
      rw [hi] at h'
      have hflight : Flight _ _ _ _ _ fin := flight_init h hi
      obtain rfl := Except.ok.inj h'
      exact hflight

end

theorem prepareProxyOp_eq {s : ProxyArgs} (h : prepareProxyOp op generation orderingKey submitFlags groups = .ok s) :
    ∃ transport, s = ProxyArgs.start op.chunkSteps transport ∧ ∀ fin, Flight transport op.chunks 0 0 0 fin := by
  unfold prepareProxyOp at h
  cases ht : CollTransport.transportInit (.ofNat op.chunks) generation orderingKey submitFlags groups with
  | error r =>
    rw [ht] at h
    cases h
  | ok transport =>
    rw [ht] at h
    obtain rfl := Except.ok.inj h
    exact ⟨transport, rfl, fun _ => transportInit_flight ht⟩

end Start

end FlagCX.Net.Proxy
