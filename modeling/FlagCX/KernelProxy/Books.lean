import FlagCX.KernelProxy.Keeps

/-!
# The books of the staging slots

* `Books held k` : the staging slots in use are those of the requests and `held`, and `nativeInflight` counts the posted.
* `Shrinks`      : what a poll does to the requests.
* `Books.poll`   : a poll keeps the books.
-/

namespace FlagCX.KernelProxy
open List Function

open Net Lib Transport

/-- The request in slot `i` holds staging slot `s`. -/
def Holds (t : Transport) (i : Nat) (s : Int) : Prop :=
  i < t.capacity ∧ (t.requests i).state ≠ .free ∧ (t.requests i).stagingSlot = s

def postedCount (t : Transport) : Nat := occupied (fun r : Request => r.state = .posted) t.capacity t.requests

/-- The invariant of the staging slots and of the counter; `held` is the slot a post holds for a request not reserved yet,
or `-1`. -/
structure Books (held : Int) (k : Kernel) : Prop where
  sound : Sound k.transport
  inflight : k.transport.nativeInflight = postedCount k.transport
  low : -1 ≤ held ∧ ∀ i < k.transport.capacity, -1 ≤ (k.transport.requests i).stagingSlot
  used : ∀ s : Nat, k.stagingInUse s = true ↔ (s : Int) = held ∨ ∃ i, Holds k.transport i s
  bound : ∀ s : Nat, k.stagingInUse s = true → s < k.stagingSlotCount.toNat
  apart : ∀ i j s, 0 ≤ s → Holds k.transport i s → Holds k.transport j s → i = j
  spare : 0 ≤ held → ∀ i, ¬ Holds k.transport i held

variable {t : Transport}

theorem Sound.keep {t' : Transport} (h : Sound t) (hr : t'.requests = t.requests) (hd : t'.domains = t.domains)
    (hc : t'.capacity = t.capacity) : Sound t' := h.move (.keep hr hd hc : Move False False t t' [])

section Books
variable {k : Kernel} {t' : Transport} {held : Int} {i j : Nat} {r : Request} {s : Int}

theorem Books.congr (h : Books held k) (hs : Sound t') (hstate : ∀ i, (t'.requests i).state = (k.transport.requests i).state)
    (hslot : ∀ i, (t'.requests i).stagingSlot = (k.transport.requests i).stagingSlot)
    (hcap : t'.capacity = k.transport.capacity) (hcount : t'.nativeInflight = k.transport.nativeInflight) :
    Books held { k with transport := t' } := by
  have hholds : ∀ i s, Holds t' i s ↔ Holds k.transport i s := by
    intro i s
    rw [Holds, Holds, hstate, hslot, hcap]
  refine ⟨hs, ?_, ⟨h.low.1, fun i hi => ?_⟩, fun s => ?_, h.bound, fun i j s h0 hi hj => ?_, fun h0 i hi => ?_⟩
  · rw [hcount, h.inflight, postedCount, postedCount, hcap]
    exact occupied_congr _ fun i _ => by rw [hstate]
  · rw [hslot]
    exact h.low.2 i (hcap ▸ hi)
  · rw [h.used s]
    exact or_congr_right (exists_congr fun i => (hholds i s).symm)
  · exact h.apart i j s h0 ((hholds i s).1 hi) ((hholds j s).1 hj)
  · exact h.spare h0 i ((hholds i held).1 hi)

theorem Books.keeps (h : Books held k) (hk : Keeps k.transport t') (hs : Sound t') :
    Books held { k with transport := t' } := h.congr hs hk.state hk.stagingSlot hk.capacity hk.nativeInflight

/-! ## Staging slots -/

theorem Books.acquire (h : Books (-1) k) :
    (k.acquireStagingSlot.2 = (k, none)) ∨ ∃ s : Nat, k.acquireStagingSlot.2.2 = some s ∧ k.stagingInUse s = false ∧
      k.acquireStagingSlot.2.1.transport = k.transport ∧
      k.acquireStagingSlot.2.1.stagingInUse = update k.stagingInUse s true ∧
      k.acquireStagingSlot.2.1.stagingSlotCount = k.stagingSlotCount ∧ Books s k.acquireStagingSlot.2.1 := by
  rw [Kernel.acquireStagingSlot]
  by_cases hzero : k.stagingSlotCount = 0
  · rw [if_pos hzero]
    exact .inl rfl
  rw [if_neg hzero]
  cases hfind : (range k.stagingSlotCount.toNat).find? fun i => !k.stagingInUse (k.candidate i) with
  | none => exact .inl rfl
  | some n =>
    have hfree : k.stagingInUse (k.candidate n) = false := by
      have := find?_some (p := fun i => !k.stagingInUse (k.candidate i)) hfind
      simpa using this
    have hpos : 0 < k.stagingSlotCount.toNat := (Nat.zero_le n).trans_lt (mem_range.1 (mem_of_find?_eq_some hfind))
    have hlt : k.candidate n < k.stagingSlotCount.toNat := Nat.mod_lt _ hpos
    dsimp only
    generalize k.candidate n = c at hfree hlt ⊢
    have hnone : ∀ i, ¬ Holds k.transport i c := by
      intro i hi
      rw [(h.used c).2 (.inr ⟨i, hi⟩)] at hfree
      cases hfree
    refine .inr ⟨c, rfl, hfree, rfl, rfl, rfl, h.sound, h.inflight, ⟨by omega, h.low.2⟩, fun s => ?_, fun s hs => ?_, h.apart,
      fun _ => hnone⟩
    · show update k.stagingInUse c true s = true ↔ _
      by_cases hs : s = c
      · rw [hs, update_self]
        exact ⟨fun _ => .inl rfl, fun _ => rfl⟩
      · rw [update_of_ne hs, h.used s]
        constructor
        · rintro (hneg | hheld)
          · omega
          · exact .inr hheld
        · rintro (heq | hheld)
          · omega
          · exact .inr hheld
    · change update k.stagingInUse c true s = true at hs
      by_cases hsc : s = c
      · rw [hsc]
        exact hlt
      · rw [update_of_ne hsc] at hs
        exact h.bound s hs

theorem Books.release (h : Books held k) :
    (k.releaseIfAny held).1 = .success ∧ (k.releaseIfAny held).2.transport = k.transport ∧
      (k.releaseIfAny held).2.stagingSlotCount = k.stagingSlotCount ∧
      (k.releaseIfAny held).2.stagingInUse = (if 0 ≤ held then update k.stagingInUse held.toNat false else k.stagingInUse) ∧
      Books (-1) (k.releaseIfAny held).2 := by
  rw [Kernel.releaseIfAny]
  by_cases h0 : 0 ≤ held
  swap
  · have hneg : held = -1 := by have := h.low.1; omega
    rw [if_neg h0, if_neg h0]
    refine ⟨rfl, rfl, rfl, rfl, ?_⟩
    rw [← hneg]
    exact h
  have hcast : ((held.toNat : Nat) : Int) = held := Int.toNat_of_nonneg h0
  have hused : k.stagingInUse held.toNat = true := (h.used _).2 (.inl hcast)
  have hlt := h.bound _ hused
  rw [if_pos h0, if_pos h0, Kernel.releaseStagingSlot, if_neg (by rw [hused]; simp; omega)]
  refine ⟨rfl, rfl, rfl, rfl, h.sound, h.inflight, ⟨le_rfl, h.low.2⟩, fun s => ?_, fun s hs => ?_, h.apart, fun hneg => ?_⟩
  · show update k.stagingInUse held.toNat false s = true ↔ _
    by_cases hs : s = held.toNat
    · rw [hs, update_self]
      constructor
      · exact nofun
      · rintro (hneg | ⟨i, hi⟩)
        · omega
        · rw [hcast] at hi
          exact absurd hi (h.spare h0 i)
    · rw [update_of_ne hs, h.used s]
      constructor
      · rintro (heq | hheld)
        · omega
        · exact .inr hheld
      · rintro (hneg | hheld)
        · omega
        · exact .inr hheld
  · change update k.stagingInUse held.toNat false s = true at hs
    by_cases hsh : s = held.toNat
    · rw [hsh, update_self] at hs
      cases hs
    · rw [update_of_ne hsh] at hs
      exact h.bound s hs
  · omega

/-! ## Requests that come and go -/

theorem Books.enter (h : Books held k) (hi : i < k.transport.capacity) (hfree : (k.transport.requests i).state = .free)
    (hlive : (t'.requests i).state ≠ .free) (hslot : (t'.requests i).stagingSlot = held)
    (hother : ∀ j, j ≠ i → t'.requests j = k.transport.requests j) (hcap : t'.capacity = k.transport.capacity)
    (hcount : t'.nativeInflight = k.transport.nativeInflight + (if (t'.requests i).state = .posted then 1 else 0))
    (hs : Sound t') : Books (-1) { k with transport := t' } := by
  have hnot : ∀ s, ¬ Holds k.transport i s := fun s hs => hs.2.1 hfree
  have hholds : ∀ j s, Holds t' j s ↔ (j = i ∧ held = s) ∨ Holds k.transport j s := by
    intro j s
    by_cases hj : j = i
    · rw [hj, Holds, hslot, hcap]
      exact ⟨fun he => .inl ⟨rfl, he.2.2⟩, fun he => he.elim (fun he => ⟨hi, hlive, he.2⟩) fun he => absurd he (hnot s)⟩
    · rw [Holds, Holds, hother j hj, hcap]
      exact ⟨.inr, fun he => he.resolve_left fun he => hj he.1⟩
  have hcard : postedCount t' = postedCount k.transport + (if (t'.requests i).state = .posted then 1 else 0) := by
    have hcongr : postedCount t' = occupied (fun r : Request => r.state = .posted) k.transport.capacity
        (update k.transport.requests i (t'.requests i)) := by
      rw [postedCount, hcap]
      refine occupied_congr _ fun j _ => ?_
      by_cases hj : j = i
      · rw [hj, update_self]
      · rw [update_of_ne hj, hother j hj]
    rw [hcongr, postedCount]
    by_cases hp : (t'.requests i).state = .posted
    · rw [if_pos hp]
      exact occupied_update_fill (fun r : Request => r.state = .posted) hi (by rw [hfree]; exact nofun) hp
    · rw [if_neg hp]
      exact occupied_update_same (fun r : Request => r.state = .posted) (iff_of_false (by rw [hfree]; exact nofun) hp)
  refine ⟨hs, ?_, ⟨le_rfl, fun j hj => ?_⟩, fun s => ?_, h.bound, fun a b s h0 ha hb => ?_, fun hneg => by omega⟩
  · rw [hcount, hcard, h.inflight]
  · by_cases hji : j = i
    · rw [hji, hslot]
      exact h.low.1
    · rw [hother j hji]
      exact h.low.2 j (hcap ▸ hj)
  · rw [h.used s]
    constructor
    · rintro (heq | ⟨j, hj⟩)
      · exact .inr ⟨i, (hholds i s).2 (.inl ⟨rfl, heq.symm⟩)⟩
      · exact .inr ⟨j, (hholds j s).2 (.inr hj)⟩
    · rintro (hneg | ⟨j, hj⟩)
      · omega
      · rcases (hholds j s).1 hj with ⟨-, heq⟩ | hj
        · exact .inl heq.symm
        · exact .inr ⟨j, hj⟩
  · rcases (hholds a s).1 ha with ⟨ha, has⟩ | ha <;> rcases (hholds b s).1 hb with ⟨hb, hbs⟩ | hb
    · rw [ha, hb]
    · exact absurd (has ▸ hb) (h.spare (has ▸ h0) b)
    · exact absurd (hbs ▸ ha) (h.spare (hbs ▸ h0) a)
    · exact h.apart a b s h0 ha hb

theorem Books.drop (h : Books (-1) k) (hi : i < k.transport.capacity) (hlive : (k.transport.requests i).state ≠ .free)
    (hself : t'.requests i = requestReset) (hstate : ∀ j, j ≠ i → (t'.requests j).state = (k.transport.requests j).state)
    (hslot : ∀ j, j ≠ i → (t'.requests j).stagingSlot = (k.transport.requests j).stagingSlot)
    (hcap : t'.capacity = k.transport.capacity)
    (hcount : t'.nativeInflight + (if (k.transport.requests i).state = .posted then 1 else 0) = k.transport.nativeInflight)
    (hs : Sound t') : Books (k.transport.requests i).stagingSlot { k with transport := t' } := by
  have hholds : ∀ j s, Holds t' j s ↔ j ≠ i ∧ Holds k.transport j s := by
    intro j s
    by_cases hj : j = i
    · rw [hj, Holds, hself]
      exact ⟨fun he => absurd rfl he.2.1, fun he => absurd rfl he.1⟩
    · rw [Holds, Holds, hstate j hj, hslot j hj, hcap]
      exact ⟨fun he => ⟨hj, he⟩, fun he => he.2⟩
  have hcard : postedCount t' + (if (k.transport.requests i).state = .posted then 1 else 0) = postedCount k.transport := by
    have hcongr : postedCount t' = occupied (fun r : Request => r.state = .posted) k.transport.capacity
        (update k.transport.requests i requestReset) := by
      rw [postedCount, hcap]
      refine occupied_congr _ fun j _ => ?_
      by_cases hj : j = i
      · rw [hj, hself, update_self]
      · rw [update_of_ne hj, hstate j hj]
    rw [hcongr, postedCount]
    by_cases hp : (k.transport.requests i).state = .posted
    · rw [if_pos hp]
      exact occupied_update_free (fun r : Request => r.state = .posted) hi hp (by simp [requestReset])
    · rw [if_neg hp]
      exact occupied_update_same (fun r : Request => r.state = .posted) (iff_of_false hp (by simp [requestReset]))
  refine ⟨hs, ?_, ⟨h.low.2 i hi, fun j hj => ?_⟩, fun s => ?_, h.bound, fun a b s h0 ha hb => ?_, fun h0 j hj => ?_⟩
  · show t'.nativeInflight = postedCount t'
    have := h.inflight
    omega
  · by_cases hji : j = i
    · rw [hji, hself]
      exact le_rfl
    · rw [hslot j hji]
      exact h.low.2 j (hcap ▸ hj)
  · rw [h.used s]
    constructor
    · rintro (hneg | ⟨j, hj⟩)
      · omega
      · by_cases hji : j = i
        · rw [hji] at hj
          exact .inl hj.2.2.symm
        · exact .inr ⟨j, (hholds j s).2 ⟨hji, hj⟩⟩
    · rintro (heq | ⟨j, hj⟩)
      · exact .inr ⟨i, hi, hlive, heq.symm⟩
      · exact .inr ⟨j, ((hholds j s).1 hj).2⟩
  · exact h.apart a b s h0 ((hholds a s).1 ha).2 ((hholds b s).1 hb).2
  · obtain ⟨hji, hj⟩ := (hholds j _).1 hj
    exact hji (h.apart j i _ h0 hj ⟨hi, hlive, rfl⟩)

end Books

/-! ## Polling -/

structure Stays (r r' : Request) : Prop where
  state : r'.state = r.state
  stagingSlot : r'.stagingSlot = r.stagingSlot
  submit : r'.submit = r.submit

/-- Requests only leave. -/
structure Shrinks (k k' : Kernel) : Prop where
  capacity : k'.transport.capacity = k.transport.capacity
  nextSequence : k'.transport.nextSequence = k.transport.nextSequence
  live : ∀ i, (k'.transport.requests i).state ≠ .free → Stays (k.transport.requests i) (k'.transport.requests i)

theorem Shrinks.refl (k : Kernel) : Shrinks k k := ⟨rfl, rfl, fun _ _ => ⟨rfl, rfl, rfl⟩⟩

theorem Shrinks.trans {k k' k'' : Kernel} (h : Shrinks k k') (h' : Shrinks k' k'') : Shrinks k k'' := by
  refine ⟨h'.capacity.trans h.capacity, h'.nextSequence.trans h.nextSequence, fun i hi => ?_⟩
  have hs' := h'.live i hi
  have hs := h.live i (hs'.state ▸ hi)
  exact ⟨hs'.state.trans hs.state, hs'.stagingSlot.trans hs.stagingSlot, hs'.submit.trans hs.submit⟩

section Poll
variable {k : Kernel} {i : Nat} {t' : Transport}

theorem Keeps.shrinks (h : Keeps k.transport t') : Shrinks k { k with transport := t' } :=
  ⟨h.capacity, h.nextSequence, fun i _ => ⟨h.state i, h.stagingSlot i, h.submit i⟩⟩

theorem progressRequest_ready (h : Sound t) (hi : i < t.capacity) (hposted : (t.requests i).state = .posted)
    {data flush : TestAnswer} {post : PostAnswer} (hres : (t.progressRequest i data flush post).result = .success)
    (hready : (t.progressRequest i data flush post).ready = true) (d q : Nat)
    (hp : (t.progressRequest i data flush post).transport.place i = some (d, q)) :
    q ≤ ((t.progressRequest i data flush post).transport.domains d).visibleGetSequence := by
  obtain ⟨-, hend⟩ := progressRequest_moves False False h hi hposted data flush post
  rcases hend with ⟨-, -, hnone⟩ | ⟨-, hnot⟩ | ⟨d', q', hpl, ⟨-, hvis, -⟩ | ⟨hinv, -⟩⟩
  · rw [hnone] at hp
    cases hp
  · rw [hnot] at hready
    cases hready
  · rw [hpl] at hp
    cases hp
    exact hvis.1 hready
  · rw [hinv] at hres
    cases hres

theorem Books.progress (h : Books (-1) k) (hi : i < k.transport.capacity)
    (hposted : (k.transport.requests i).state = .posted) (data flush : TestAnswer) (post : PostAnswer) :
    Books (-1) { k with transport := (k.transport.progressRequest i data flush post).transport } :=
  h.keeps (progressRequest_keeps ..) (h.sound.moves (progressRequest_moves False False h.sound hi hposted data flush post).1)

theorem Books.pollData (h : Books (-1) k) (hi : i < k.transport.capacity) (a : Kernel.Answers) :
    Books (-1) (k.pollData i a).1 ∧ Shrinks k (k.pollData i a).1 := by
  rw [Kernel.pollData]
  by_cases hawaits : Kernel.awaitsData (k.transport.requests i) = true
  · have hposted : (k.transport.requests i).state = .posted := by
      rw [Kernel.awaitsData, Bool.and_eq_true, Bool.and_eq_true, beq_iff_eq] at hawaits
      exact hawaits.1.1
    rw [if_pos hawaits]
    exact ⟨h.progress hi hposted .., (progressRequest_keeps ..).shrinks⟩
  · rw [if_neg hawaits]
    exact ⟨h, Shrinks.refl k⟩

theorem Books.give (h : Books (k.transport.requests i).stagingSlot { k with transport := t' })
    (hstay : ∀ j, (t'.requests j).state ≠ .free → Stays (k.transport.requests j) (t'.requests j))
    (hcap : t'.capacity = k.transport.capacity) (hnext : t'.nextSequence = k.transport.nextSequence) :
    (Kernel.releaseIfAny { k with transport := t' } (k.transport.requests i).stagingSlot).1 = .success ∧
      Books (-1) (Kernel.releaseIfAny { k with transport := t' } (k.transport.requests i).stagingSlot).2 ∧
      Shrinks k (Kernel.releaseIfAny { k with transport := t' } (k.transport.requests i).stagingSlot).2 := by
  obtain ⟨hok, htransport, -, -, hbooks⟩ := h.release
  refine ⟨hok, hbooks, by rw [htransport, hcap], by rw [htransport, hnext], fun j hj => ?_⟩
  rw [htransport] at hj ⊢
  exact hstay j hj

theorem stay_of_keeps {t₁ : Transport} (hk : Keeps t t₁)
    (ht' : t'.requests = (t₁.setRequest i requestReset).requests) (j : Nat) (hj : (t'.requests j).state ≠ .free) :
    Stays (t.requests j) (t'.requests j) := by
  rw [ht'] at hj ⊢
  have hji : j ≠ i := by
    rintro rfl
    rw [setRequest_self] at hj
    exact hj rfl
  rw [setRequest_ne _ hji]
  exact ⟨hk.state j, hk.stagingSlot j, hk.submit j⟩

section

variable (h : Books (-1) k) (hi : i < k.transport.capacity)
include h hi

theorem Books.abort : Books (-1) (k.abort i) ∧ Shrinks k (k.abort i) := by
  rw [Kernel.abort]
  by_cases hrefused : (k.transport.requests i).state ≠ .posted ∨ k.transport.nativeInflight = 0
  · have hout : k.transport.abortRequest i = (.invalidArgument, k.transport) := by rw [abortRequest, if_pos hrefused]
    rw [hout, if_neg nofun]
    exact ⟨h, Shrinks.refl k⟩
  push Not at hrefused
  obtain ⟨hposted, hsome⟩ := hrefused
  have hlive : (k.transport.requests i).state ≠ .free := by rw [hposted]; exact nofun
  obtain ⟨hok, hmove⟩ := remove_moves False False h.sound hi hlive fun _ _ _ hf => hf.elim
  have hkeeps := removeGetVisibilitySequence_keeps k.transport i
  have hout : k.transport.abortRequest i = (.success, { (k.transport.removeGetVisibilitySequence i).2.setRequest i requestReset
      with nativeInflight := (k.transport.removeGetVisibilitySequence i).2.nativeInflight - 1 }) := by
    rw [abortRequest, if_neg (by push Not; exact ⟨hposted, hsome⟩)]
    rw [if_neg (not_not.2 hok)]
  rw [hout, if_pos rfl]
  have hsound : Sound ({ (k.transport.removeGetVisibilitySequence i).2.setRequest i requestReset
      with nativeInflight := (k.transport.removeGetVisibilitySequence i).2.nativeInflight - 1 } : Transport) :=
    (h.sound.move hmove).keep rfl rfl rfl
  refine (Books.give ?_ ?_ ?_ ?_).2
  rotate_left
  · exact fun j hj => stay_of_keeps hkeeps rfl j hj
  · exact hkeeps.capacity
  · exact hkeeps.nextSequence
  refine h.drop hi hlive (setRequest_self ..) (fun j hj => ?_) (fun j hj => ?_) hkeeps.capacity ?_ hsound
  · exact (congrArg Request.state (setRequest_ne _ hj _)).trans (hkeeps.state j)
  · exact (congrArg Request.stagingSlot (setRequest_ne _ hj _)).trans (hkeeps.stagingSlot j)
  · show (k.transport.removeGetVisibilitySequence i).2.nativeInflight - 1 + _ = _
    rw [if_pos hposted, hkeeps.nativeInflight]
    omega

theorem Books.complete (hvis : ∀ d q, k.transport.place i = some (d, q) → q ≤ (k.transport.domains d).visibleGetSequence)
    (r : Result) : Books (-1) (k.complete i r).1 ∧ Shrinks k (k.complete i r).1 := by
  have hsound := h.sound.moves (completeRequest_moves False False hvis r)
  rw [Kernel.complete]
  by_cases hrefused : (k.transport.requests i).state ≠ .posted ∨ k.transport.nativeInflight = 0
  · have hout : k.transport.completeRequest i r = (.invalidArgument, k.transport) := by
      rw [completeRequest]
      rw [if_pos hrefused]
    rw [hout, if_pos nofun]
    exact h.abort hi
  by_cases htrack : (trackCompletion k.transport.scoreboard (k.transport.requests i).submit r).1 = .success
  swap
  · have hout : k.transport.completeRequest i r =
        ((trackCompletion k.transport.scoreboard (k.transport.requests i).submit r).1, { k.transport with
          scoreboard := (trackCompletion k.transport.scoreboard (k.transport.requests i).submit r).2.2 }) := by
      rw [completeRequest]
      rw [if_neg hrefused, if_pos htrack]
    rw [hout] at hsound ⊢
    rw [if_pos htrack]
    have hbooks : Books (-1) { k with transport := { k.transport with
        scoreboard := (trackCompletion k.transport.scoreboard (k.transport.requests i).submit r).2.2 } } :=
      h.congr hsound (fun _ => rfl) (fun _ => rfl) rfl rfl
    obtain ⟨hb, hcap, hcount, hstays⟩ := hbooks.abort (i := i) hi
    exact ⟨hb, hcap, hcount, hstays⟩
  · have hout : k.transport.completeRequest i r = (.success, { k.transport.setRequest i requestReset with
        scoreboard := (trackCompletion k.transport.scoreboard (k.transport.requests i).submit r).2.2
        nativeInflight := k.transport.nativeInflight - 1 }) := by
      rw [completeRequest]
      rw [if_neg hrefused, if_neg (not_not.2 htrack)]
    push Not at hrefused
    obtain ⟨hposted, hsome⟩ := hrefused
    have hlive : (k.transport.requests i).state ≠ .free := by rw [hposted]; exact nofun
    rw [hout] at hsound ⊢
    refine (Books.give ?_ ?_ ?_ ?_).2
    rotate_left
    · exact fun j hj => stay_of_keeps (Keeps.refl k.transport) rfl j hj
    · rfl
    · rfl
    refine h.drop hi hlive (setRequest_self ..) (fun j hj => ?_) (fun j hj => ?_) rfl ?_ hsound
    · exact congrArg Request.state (setRequest_ne _ hj _)
    · exact congrArg Request.stagingSlot (setRequest_ne _ hj _)
    · show k.transport.nativeInflight - 1 + _ = _
      rw [if_pos hposted]
      omega

theorem Books.pollRequest (a : Kernel.Answers) : Books (-1) (k.pollRequest i a).1 ∧ Shrinks k (k.pollRequest i a).1 := by
  rw [Kernel.pollRequest]
  by_cases hposted : (k.transport.requests i).state = .posted
  swap
  · rw [if_pos hposted]
    exact ⟨h, Shrinks.refl k⟩
  rw [if_neg (not_not.2 hposted)]
  have hkeeps := progressRequest_keeps k.transport i a.data a.flush a.post
  have hbooks := h.progress hi hposted a.data a.flush a.post
  have hi' : i < (k.transport.progressRequest i a.data a.flush a.post).transport.capacity := hkeeps.capacity ▸ hi
  by_cases hres : (k.transport.progressRequest i a.data a.flush a.post).result = .success
  · rw [if_neg (not_not.2 hres)]
    by_cases hready : (k.transport.progressRequest i a.data a.flush a.post).ready = true
    · rw [if_pos hready]
      obtain ⟨hb, hshrinks⟩ := hbooks.complete hi' (progressRequest_ready h.sound hi hposted hres hready)
        (k.transport.progressRequest i a.data a.flush a.post).completionResult
      exact ⟨hb, hkeeps.shrinks.trans hshrinks⟩
    · rw [if_neg hready]
      exact ⟨hbooks, hkeeps.shrinks⟩
  · rw [if_pos hres]
    obtain ⟨hb, hshrinks⟩ := hbooks.abort hi'
    exact ⟨hb, hkeeps.shrinks.trans hshrinks⟩

end

theorem Books.pollAll (turn : Kernel → Nat → Kernel × List Effect)
    (hturn : ∀ {k : Kernel} {i : Nat}, Books (-1) k → i < k.transport.capacity → Books (-1) (turn k i).1 ∧ Shrinks k (turn k i).1)
    (is : List Nat) (h : Books (-1) k) (his : ∀ i ∈ is, i < k.transport.capacity) :
    Books (-1) (Kernel.pollAll turn is k).1 ∧ Shrinks k (Kernel.pollAll turn is k).1 := by
  induction is generalizing k with
  | nil => exact ⟨h, Shrinks.refl k⟩
  | cons i is ih =>
    obtain ⟨hb, hs⟩ := hturn h (his i mem_cons_self)
    obtain ⟨hb', hs'⟩ := ih hb fun j hj => by rw [hs.capacity]; exact his j (mem_cons_of_mem i hj)
    exact ⟨hb', hs.trans hs'⟩

theorem Books.poll (h : Books (-1) k) (canTest : Bool) (first second : Nat → Kernel.Answers) :
    Books (-1) (k.poll canTest first second).1 ∧ Shrinks k (k.poll canTest first second).1 := by
  rw [Kernel.poll]
  split_ifs
  · exact ⟨h, Shrinks.refl k⟩
  · obtain ⟨hb, hs⟩ := Books.pollAll (fun k i => k.pollData i (first i)) (fun hk hi => hk.pollData hi _) _ h
      fun i hi => mem_range.1 hi
    obtain ⟨hb', hs'⟩ := Books.pollAll (fun k i => k.pollRequest i (second i)) (fun hk hi => hk.pollRequest hi _)
      (range k.transport.capacity) hb fun i hi => by rw [hs.capacity]; exact mem_range.1 hi
    exact ⟨hb', hs.trans hs'⟩

end Poll

variable {groups : Nat → ReleaseGroup}

theorem init_counts {capacity : UInt32} {generation orderingKey : UInt64}
    (h : Transport.init capacity generation orderingKey groups = .ok t) :
    t.nativeInflight = 0 ∧ t.nextSequence = 1 ∧ CompletionScoreboard.init capacity generation 1 = .ok t.scoreboard.scoreboard := by
  rw [Transport.init] at h
  split_ifs at h
  cases hb : CompletionScoreboard.init capacity generation 1 with
  | error e =>
    rw [hb] at h
    cases h
  | ok sb =>
    rw [hb] at h
    cases h
    exact ⟨rfl, rfl, rfl⟩

theorem books_init {capacity stagingSlotCount : UInt32} {generation orderingKey : UInt64}
    {k : Kernel} (hinit : Kernel.init capacity stagingSlotCount generation orderingKey groups = .ok k) :
    Books (-1) k ∧ (∀ i, (k.transport.requests i).state = .free) ∧
      Transport.init capacity generation orderingKey groups = .ok k.transport := by
  rw [Kernel.init] at hinit
  cases ht : Transport.init capacity generation orderingKey groups with
  | error e =>
    rw [ht] at hinit
    cases hinit
  | ok t =>
    rw [ht] at hinit
    cases hinit
    obtain ⟨hr, hd⟩ := init_eq ht
    have hfree : ∀ i, (t.requests i).state = .free := fun i => by rw [hr]; rfl
    have hnone : ∀ i s, ¬ Holds t i s := fun i s hs => hs.2.1 (hfree i)
    refine ⟨⟨sound_init hr hd, ?_, ⟨le_rfl, fun i _ => ?_⟩, fun s => ?_, by simp, fun i j s _ hi => absurd hi (hnone i s),
      fun hneg => absurd hneg (by decide)⟩, hfree, rfl⟩
    · rw [(init_counts ht).1, postedCount, occupied]
      exact (Finset.card_eq_zero.2 (Finset.filter_eq_empty_iff.2 fun i _ => by rw [hfree i]; decide)).symm
    · rw [hr]
      exact le_rfl
    · refine ⟨by rintro ⟨⟩, ?_⟩
      rintro (hneg | ⟨i, hi⟩)
      · omega
      · exact absurd hi (hnone i s)

end FlagCX.KernelProxy
