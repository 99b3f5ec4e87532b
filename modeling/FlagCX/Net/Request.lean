import FlagCX.Lib.Guarded
import FlagCX.Net.ReleaseGroup

/-!
# Credits and request cores (`net_transport.cc`)

The two counters that a transfer keeps beside its scoreboard: a bounded credit for the operations a backend holds, and
the request core that counts the members still pending. Both are updated by compare-and-exchange loops, so a call is one
step. A call that is refused leaves its counter as it was, but not always the result (`request_core_sound`).
-/

namespace FlagCX.Net
open Lib Option

/-! ## Credits -/

structure Credit where
  capacity : UInt32
  inUse : UInt32
  deriving DecidableEq, Repr

def creditInit (capacity : UInt32) : Except Result Credit :=
  if capacity = 0 then .error .invalidArgument else .ok ⟨capacity, 0⟩

def creditAcquire (credit : Credit) (count : UInt32) : Result × Credit :=
  if count = 0 ∨ credit.capacity = 0 ∨ credit.capacity < count then (.invalidArgument, credit)
  else if credit.capacity < credit.inUse ∨ credit.capacity - credit.inUse < count then (.inProgress, credit)
  else (.success, { credit with inUse := credit.inUse + count })

def creditRelease (credit : Credit) (count : UInt32) : Result × Credit :=
  if count = 0 ∨ credit.capacity = 0 then (.invalidArgument, credit)
  else if credit.inUse < count then (.invalidArgument, credit)
  else (.success, { credit with inUse := credit.inUse - count })

def creditAvailable (credit : Credit) : Except Result UInt32 :=
  if credit.capacity = 0 then .error .invalidArgument
  else if credit.capacity < credit.inUse then .error .internalError
  else .ok (credit.capacity - credit.inUse)

/-- A credit in use: the capacity is not zero and not exceeded. -/
structure Credit.Sound (credit : Credit) : Prop where
  capacity : credit.capacity ≠ 0
  within : credit.inUse.toNat ≤ credit.capacity.toNat

section Credit
variable {credit : Credit} {count : UInt32}

theorem Credit.Sound.available (h : credit.Sound) :
    creditAvailable credit = .ok (credit.capacity - credit.inUse) ∧
      (credit.capacity - credit.inUse).toNat = credit.capacity.toNat - credit.inUse.toNat := by
  have hle : credit.inUse ≤ credit.capacity := UInt32.le_iff_toNat_le.2 h.within
  refine ⟨?_, UInt32.toNat_sub_of_le _ _ hle⟩
  rw [creditAvailable, if_neg h.capacity, if_neg (UInt32.not_lt.2 hle)]

theorem Credit.Sound.acquire (h : credit.Sound) (hpos : count ≠ 0)
    (hfit : credit.inUse.toNat + count.toNat ≤ credit.capacity.toNat) :
    creditAcquire credit count = (.success, { credit with inUse := credit.inUse + count }) ∧
      (credit.inUse + count).toNat = credit.inUse.toNat + count.toNat := by
  have hcap := credit.capacity.toNat_lt
  have hfree := h.available.2
  constructor
  · have h1 : ¬ (count = 0 ∨ credit.capacity = 0 ∨ credit.capacity < count) := by
      simp only [hpos, h.capacity, UInt32.lt_iff_toNat_lt, false_or]
      omega
    have h2 : ¬ (credit.capacity < credit.inUse ∨ credit.capacity - credit.inUse < count) := by
      simp only [UInt32.lt_iff_toNat_lt, hfree]
      omega
    rw [creditAcquire, if_neg h1, if_neg h2]
  · rw [UInt32.toNat_add]
    omega

theorem Credit.Sound.release (h : credit.Sound) (hpos : count ≠ 0) (hheld : count.toNat ≤ credit.inUse.toNat) :
    creditRelease credit count = (.success, { credit with inUse := credit.inUse - count }) ∧
      (credit.inUse - count).toNat = credit.inUse.toNat - count.toNat := by
  have hle : count ≤ credit.inUse := UInt32.le_iff_toNat_le.2 hheld
  refine ⟨?_, UInt32.toNat_sub_of_le _ _ hle⟩
  have h1 : ¬ (count = 0 ∨ credit.capacity = 0) := by simp [hpos, h.capacity]
  rw [creditRelease, if_neg h1, if_neg (UInt32.not_lt.2 hle)]

end Credit

/-! ## Request cores -/

inductive RequestState where
  | free
  | pending
  | complete
  deriving DecidableEq, Repr

structure RequestCore where
  state : RequestState
  pending : UInt32
  result : Result
  deriving DecidableEq, Repr

def requestCoreInit : RequestCore := ⟨.free, 0, .success⟩

def requestCoreAcquire (core : RequestCore) : Result × RequestCore :=
  if core.state = .free then (.success, ⟨.pending, 0, .success⟩) else (.inProgress, core)

def requestCoreAddPending (core : RequestCore) (count : UInt32) : Result × RequestCore :=
  if count = 0 ∨ core.state ≠ .pending then (.invalidArgument, core)
  else if uint32Max - count < core.pending then (.invalidArgument, core)
  else (.success, { core with pending := core.pending + count })

def requestCoreRecordResult (core : RequestCore) (result : Result) : RequestCore :=
  if result = .success ∨ result = .inProgress then core
  else if core.result = .success then { core with result := result }
  else core

/-- `flagcxNetRequestCoreComplete`. The result is recorded before the count is checked. -/
def requestCoreComplete (core : RequestCore) (count : UInt32) (result : Result) : Result × RequestCore :=
  if count = 0 ∨ core.state ≠ .pending then (.invalidArgument, core)
  else
    let recorded := requestCoreRecordResult core result
    if recorded.pending < count then (.invalidArgument, recorded)
    else
      let next := recorded.pending - count
      (.success, { recorded with pending := next, state := if next = 0 then .complete else recorded.state })

def requestCoreFinish (core : RequestCore) (result : Result) : Result × RequestCore :=
  if core.state ≠ .pending ∨ core.pending ≠ 0 then (.invalidArgument, core)
  else (.success, { requestCoreRecordResult core result with state := .complete })

/-- `flagcxNetRequestCoreTest`: the result and `*done`, which a free core does not write. -/
def requestCoreTest (core : RequestCore) : Result × Option Bool :=
  if core.state = .free then (.invalidArgument, none)
  else if core.state = .complete then (core.result, some true)
  else (.success, some false)

def requestCoreRelease (core : RequestCore) : Result × RequestCore :=
  if core.state = .complete then (.success, requestCoreInit) else (.invalidArgument, core)

/-- A core in use with `n` members pending: it is complete exactly when none is. -/
structure RequestCore.Counts (core : RequestCore) (n : Nat) : Prop where
  pending : core.pending.toNat = n
  state : core.state = if n = 0 then .complete else .pending

section RequestCore
variable {core : RequestCore} {n : Nat}

theorem RequestCore.Counts.complete (h : core.Counts (n + 1)) (result : Result) :
    (requestCoreComplete core 1 result).1 = .success ∧ (requestCoreComplete core 1 result).2.Counts n ∧
      (requestCoreComplete core 1 result).2.result = (requestCoreRecordResult core result).result := by
  have hstate : core.state = .pending := by simpa using h.state
  have hrec : (requestCoreRecordResult core result).pending = core.pending ∧
      (requestCoreRecordResult core result).state = core.state := by
    unfold requestCoreRecordResult
    split_ifs <;> exact ⟨rfl, rfl⟩
  have hp := h.pending
  have hle : (1 : UInt32) ≤ core.pending := by
    rw [UInt32.le_iff_toNat_le, UInt32.toNat_one]
    omega
  have hsub : (core.pending - 1).toNat = n := by
    rw [UInt32.toNat_sub_of_le _ _ hle, UInt32.toNat_one]
    omega
  have hzero : core.pending - 1 = 0 ↔ n = 0 := by
    rw [← UInt32.toNat_inj, hsub]
    rfl
  have h1 : ¬ ((1 : UInt32) = 0 ∨ core.state ≠ .pending) := by simp [hstate]
  have h2 : ¬ (requestCoreRecordResult core result).pending < 1 := by
    rw [hrec.1]
    exact UInt32.not_lt.2 hle
  unfold requestCoreComplete
  rw [if_neg h1]
  rw [if_neg h2]
  refine ⟨rfl, ⟨?_, ?_⟩, rfl⟩
  · rw [hrec.1]
    exact hsub
  · rw [hrec.1, hrec.2, hstate]
    simp only [hzero]

theorem RequestCore.Counts.test (h : core.Counts n) :
    requestCoreTest core = if n = 0 then (core.result, some true) else (.success, some false) := by
  unfold requestCoreTest
  rw [h.state]
  by_cases hn : n = 0
  · simp [hn]
  · simp [hn]

end RequestCore

/-! ## Sequences of calls -/

inductive RequestCall where
  | acquire
  | addPending (count : UInt32)
  | complete (count : UInt32) (result : Result)
  | finish (result : Result)
  | test
  | release
  deriving DecidableEq, Repr

def RequestCore.call (core : RequestCore) : RequestCall → Result × RequestCore
  | .acquire => requestCoreAcquire core
  | .addPending count => requestCoreAddPending core count
  | .complete count result => requestCoreComplete core count result
  | .finish result => requestCoreFinish core result
  | .test => ((requestCoreTest core).1, core)
  | .release => requestCoreRelease core

/-- A core with what has been accepted since it was acquired: the counts, a `Finish`, and the first failure. -/
structure Accepted where
  core : RequestCore
  added : Nat
  completed : Nat
  finished : Bool
  first : Result
  deriving DecidableEq, Repr

/-- The first result other than success. -/
def keepFirst (first result : Result) : Result := if first = .success then result else first

def Accepted.init : Accepted := ⟨requestCoreInit, 0, 0, false, .success⟩

def Accepted.step (a : Accepted) (c : RequestCall) : Option Accepted :=
  let core := (a.core.call c).2
  if (a.core.call c).1 ≠ .success then some { a with core := core }
  else match c with
    | .acquire | .release => some { Accepted.init with core := core }
    | .addPending count => some { a with core := core, added := a.added + count.toNat }
    | .complete count result =>
      some { a with core := core, completed := a.completed + count.toNat, first := keepFirst a.first result }
    | .finish result => some { a with core := core, finished := true, first := keepFirst a.first result }
    | .test => some { a with core := core }

/-- A `Complete` of more than is pending does not carry the first error. -/
def RequestCore.Rejects (core : RequestCore) : RequestCall → Prop
  | .complete count result =>
    core.state = .pending → core.pending < count → core.result = .success → result = .success ∨ result = .inProgress
  | _ => True

/-- Moreover nothing completes with `flagcxInProgress` before there is an error. -/
def RequestCore.Meets (core : RequestCore) : RequestCall → Prop
  | .complete count result => core.Rejects (.complete count result) ∧ (result = .inProgress → core.result ≠ .success)
  | .finish result => result = .inProgress → core.result ≠ .success
  | _ => True

instance (core : RequestCore) : (c : RequestCall) → Decidable (core.Rejects c)
  | .complete _ _ => inferInstanceAs (Decidable (_ → _ → _ → _))
  | .acquire | .addPending _ | .finish _ | .test | .release => .isTrue trivial

instance (core : RequestCore) : (c : RequestCall) → Decidable (core.Meets c)
  | .complete _ _ => inferInstanceAs (Decidable (_ ∧ (_ → _)))
  | .finish _ => inferInstanceAs (Decidable (_ → _))
  | .acquire | .addPending _ | .test | .release => .isTrue trivial

/-- What the core says of the calls that were accepted. -/
structure Accepted.Told (a : Accepted) : Prop where
  free : a.core.state = .free → a.core = requestCoreInit
  result : a.core.result = a.first
  pending : a.core.pending.toNat + a.completed = a.added
  complete : a.core.state = .complete ↔ a.finished = true ∨ (0 < a.completed ∧ a.completed = a.added)

section Calls
variable {core : RequestCore} {a a' : Accepted} {count : UInt32} {result : Result}

theorem recordResult_spec (core : RequestCore) (result : Result) :
    (requestCoreRecordResult core result).state = core.state ∧ (requestCoreRecordResult core result).pending = core.pending ∧
      (requestCoreRecordResult core result).result =
        if core.result = .success ∧ result ≠ .inProgress then result else core.result := by
  unfold requestCoreRecordResult
  split_ifs <;> simp_all

theorem complete_refused (h : (requestCoreComplete core count result).1 = .invalidArgument) :
    (requestCoreComplete core count result).2 = core ∨ core.state = .pending ∧ core.pending < count ∧
      (requestCoreComplete core count result).2 = requestCoreRecordResult core result := by
  unfold requestCoreComplete at h ⊢
  dsimp only at h ⊢
  split_ifs at h ⊢ with hpre hlt
  · exact .inl rfl
  · rw [(recordResult_spec core result).2.1] at hlt
    exact .inr ⟨by tauto, hlt, rfl⟩

theorem call_refused_iff (core : RequestCore) (c : RequestCall) :
    ((core.call c).1 = .invalidArgument → (core.call c).2 = core) ↔ core.Rejects c := by
  cases c with
  | complete count result =>
    constructor
    · intro hkeep hstate hlt hnone
      by_contra hno
      have hcount : count ≠ 0 := by
        rintro rfl
        exact UInt32.not_lt_zero hlt
      obtain ⟨-, hpending, hresult⟩ := recordResult_spec core result
      have hcall : core.call (.complete count result) = (.invalidArgument, requestCoreRecordResult core result) := by
        simp only [RequestCore.call, requestCoreComplete, hpending]
        rw [if_neg (by simp [hcount, hstate]), if_pos hlt]
      rw [hcall] at hkeep
      have hsame : requestCoreRecordResult core result = core := hkeep rfl
      rw [hsame, if_pos ⟨hnone, fun h => hno (.inr h)⟩] at hresult
      exact hno (.inl (hresult.symm.trans hnone))
    · intro hrejects hrefused
      obtain hsame | ⟨hstate, hlt, hsame⟩ := complete_refused hrefused
      · exact hsame
      · refine hsame.trans ?_
        unfold requestCoreRecordResult
        by_cases hnone : core.result = .success
        · rw [if_pos (hrejects hstate hlt hnone)]
        · rw [if_neg hnone, ite_self]
  | acquire => exact iff_of_true (by simp only [RequestCore.call, requestCoreAcquire]; split_ifs <;> simp) trivial
  | addPending count =>
    exact iff_of_true (by simp only [RequestCore.call, requestCoreAddPending]; split_ifs <;> simp) trivial
  | finish result => exact iff_of_true (by simp only [RequestCore.call, requestCoreFinish]; split_ifs <;> simp) trivial
  | test => exact iff_of_true (fun _ => rfl) trivial
  | release => exact iff_of_true (by simp only [RequestCore.call, requestCoreRelease]; split_ifs <;> simp) trivial

theorem call_unchanged {c : RequestCall} (hrejects : core.Rejects c) (h : (core.call c).1 ≠ .success) :
    (core.call c).2 = core := by
  by_cases hrefused : (core.call c).1 = .invalidArgument
  · exact (call_refused_iff core c).2 hrejects hrefused
  · cases c <;> simp only [RequestCore.call, requestCoreAcquire, requestCoreAddPending, requestCoreComplete, requestCoreFinish,
      requestCoreRelease] at h hrefused ⊢ <;> split_ifs at h hrefused ⊢ <;> simp_all

theorem told_init : Accepted.init.Told := ⟨fun _ => rfl, rfl, rfl, by decide⟩

theorem Accepted.Told.recorded (h : a.Told) (hmeets : result = .inProgress → a.core.result ≠ .success) :
    (requestCoreRecordResult a.core result).result = keepFirst a.first result := by
  rw [(recordResult_spec a.core result).2.2, keepFirst, ← h.result]
  by_cases hnone : a.core.result = .success
  · rw [if_pos ⟨hnone, fun hprogress => hmeets hprogress hnone⟩, if_pos hnone]
  · rw [if_neg fun hboth => hnone hboth.1, if_neg hnone]

theorem Accepted.Told.step {c : RequestCall} (h : a.Told) (hmeets : a.core.Meets c) (hstep : a.step c = some a') : a'.Told := by
  unfold Accepted.step at hstep
  split_ifs at hstep with hfail
  · have hrejects : a.core.Rejects c := by
      cases c with
      | complete count result => exact hmeets.1
      | acquire | addPending count | finish result | test | release => trivial
    obtain rfl := some.inj hstep
    rw [call_unchanged hrejects hfail]
    exact h
  · have hok := not_not.1 hfail
    cases c with
    | acquire =>
      obtain rfl := some.inj hstep
      simp only [RequestCore.call, requestCoreAcquire] at hok ⊢
      split_ifs at hok ⊢
      exact ⟨nofun, rfl, rfl, by decide⟩
    | release =>
      obtain rfl := some.inj hstep
      simp only [RequestCore.call, requestCoreRelease] at hok ⊢
      split_ifs at hok ⊢
      exact told_init
    | test =>
      obtain rfl := some.inj hstep
      exact h
    | addPending count =>
      obtain rfl := some.inj hstep
      simp only [RequestCore.call, requestCoreAddPending] at hok ⊢
      split_ifs at hok ⊢ with hpre hroom
      obtain ⟨hcount, hstate⟩ := not_or.1 hpre
      have hadd : (a.core.pending + count).toNat = a.core.pending.toNat + count.toNat := by
        have hmax : uint32Max.toNat = 2 ^ 32 - 1 := rfl
        have hle : count ≤ uint32Max := by
          rw [UInt32.le_iff_toNat_le, hmax]
          have := count.toNat_lt
          omega
        rw [UInt32.not_lt, UInt32.le_iff_toNat_le, UInt32.toNat_sub_of_le _ _ hle, hmax] at hroom
        rw [UInt32.toNat_add, Nat.mod_eq_of_lt]
        have := count.toNat_lt
        omega
      have hopen := mt h.complete.2 (by rw [not_not.1 hstate]; decide)
      have hsum := h.pending
      refine ⟨fun hfree => absurd (hfree.symm.trans (not_not.1 hstate)) nofun, h.result, ?_, ?_⟩
      · simp only [hadd]
        omega
      · refine iff_of_false (by rw [not_not.1 hstate]; nofun) fun hdone => ?_
        obtain hdone | hdone := hdone
        · exact hopen (.inl hdone)
        · simp only at hdone
          omega
    | complete count result =>
      obtain rfl := some.inj hstep
      obtain ⟨hstate', hpending', -⟩ := recordResult_spec a.core result
      have hrecorded := h.recorded hmeets.2
      simp only [RequestCore.call, requestCoreComplete, hpending', hstate'] at hok ⊢
      split_ifs at hok ⊢ with hpre hlt hzero
      all_goals
        obtain ⟨hcount, hstate⟩ := not_or.1 hpre
        have hpos : count.toNat ≠ 0 := fun hzero => hcount (UInt32.toNat_inj.1 hzero)
        have hle := UInt32.not_lt.1 hlt
        have hsub := UInt32.toNat_sub_of_le _ _ hle
        have hnat := UInt32.le_iff_toNat_le.1 hle
        have hopen := mt h.complete.2 (by rw [not_not.1 hstate]; decide)
        have hsum := h.pending
      · have hleft : (a.core.pending - count).toNat = 0 := by rw [hzero]; rfl
        refine ⟨nofun, hrecorded, ?_, iff_of_true rfl (.inr ⟨?_, ?_⟩)⟩ <;> simp only <;> omega
      · have hleft : (a.core.pending - count).toNat ≠ 0 := fun heq => hzero (UInt32.toNat_inj.1 heq)
        refine ⟨fun hfree => absurd (hfree.symm.trans (not_not.1 hstate)) nofun, hrecorded, ?_, ?_⟩
        · simp only
          omega
        · refine iff_of_false (by rw [not_not.1 hstate]; nofun) fun hdone => ?_
          obtain hdone | hdone := hdone
          · exact hopen (.inl hdone)
          · simp only at hdone
            omega
    | finish result =>
      obtain rfl := some.inj hstep
      obtain ⟨-, hpending', -⟩ := recordResult_spec a.core result
      have hrecorded := h.recorded hmeets
      simp only [RequestCore.call, requestCoreFinish] at hok ⊢
      split_ifs at hok ⊢
      refine ⟨nofun, hrecorded, ?_, iff_of_true rfl (.inl rfl)⟩
      simp only [hpending']
      exact h.pending

theorem Accepted.Told.test (h : a.Told) (hused : a.core.state ≠ .free) : requestCoreTest a.core =
    if a.finished = true ∨ (0 < a.completed ∧ a.completed = a.added) then (a.first, some true) else (.success, some false) := by
  unfold requestCoreTest
  rw [if_neg hused]
  by_cases hdone : a.core.state = .complete
  · rw [if_pos hdone, if_pos (h.complete.1 hdone), h.result]
  · rw [if_neg hdone, if_neg (mt h.complete.2 hdone)]

end Calls

/-- **Request cores.** A refused call changes nothing exactly when it is not a `Complete` of more than is pending that records
the first error. -/
theorem request_core_sound (core : RequestCore) (c : RequestCall) :
    (((core.call c).1 = .invalidArgument → (core.call c).2 = core) ↔ core.Rejects c) ∧
    ∀ a : Accepted, Reach Accepted.step (fun a c => a.core.Meets c) .init a → a.core.state ≠ .free →
      (a.core.state = .complete ↔ a.finished = true ∨ (0 < a.completed ∧ a.completed = a.added)) ∧
      requestCoreTest a.core =
        if a.finished = true ∨ (0 < a.completed ∧ a.completed = a.added) then (a.first, some true) else (.success, some false) := by
  refine ⟨call_refused_iff core c, fun a h hused => ?_⟩
  have htold : a.Told := h.invariant told_init fun _ _ _ ht hmeets hstep => ht.step hmeets hstep
  exact ⟨htold.complete, htold.test hused⟩

/-- Two members, of which the first fails. -/
theorem request_core_sound_two : ∃ a, exec Accepted.step .init
      [.acquire, .addPending 2, .complete 1 .systemError, .complete 1 .success] = some a ∧ a.core.state = .complete ∧
    requestCoreTest a.core = (.systemError, some true) := by
  refine ⟨_, rfl, rfl, ?_⟩
  have hexec : exec (fun (a : Accepted) c => if decide (a.core.Meets c) then a.step c else none) .init
      [.acquire, .addPending 2, .complete 1 .systemError, .complete 1 .success] = some _ := rfl
  exact ((request_core_sound Accepted.init.core .acquire).2 _ (.of_checked (fun _ _ => of_decide_eq_true) hexec) nofun).2

/-- Completing two of one member is refused, and the error stays. -/
theorem refused_records : ¬ ∀ (cs : List RequestCall) (a : Accepted) (c : RequestCall), exec Accepted.step .init cs = some a →
    (a.core.call c).1 = .invalidArgument → (a.core.call c).2 = a.core := by
  intro hall
  exact absurd (hall [.acquire, .addPending 1] _ (.complete 2 .systemError) rfl rfl) (by decide)

end FlagCX.Net
