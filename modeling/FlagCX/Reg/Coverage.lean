import FlagCX.Lib.Guarded
import FlagCX.Reg.Pool

/-!
# The pool covers the registered buffers

* `PoolInv`    : the items are whole pages, and the global map leads from exactly their pages to them.
* `Placed`     : what placing an item does to the pool, whether it is new, grows or only counts; `Placed.kept`.
* `registerBuffer_placed`, `deregisterBuffer_spec` : what the two functions do.
* `pool_good_counterexample` : a buffer over two items.
-/

namespace FlagCX.Reg
open Lib Function List Option

variable {bits : Nat}

abbrev RegItem.pages (reg : RegItem) (pageSize : Nat) : List Nat := Lib.pages pageSize reg.beginAddr reg.endAddr

/-- One or more whole pages. -/
structure RegItem.WF (bits : Nat) (reg : RegItem) : Prop where
  begin_dvd : 2 ^ bits ∣ reg.beginAddr
  end_dvd : 2 ^ bits ∣ reg.endAddr
  lt : reg.beginAddr < reg.endAddr

variable {page : Nat} {reg : RegItem}

theorem RegItem.WF.mem_pages (h : reg.WF bits) :
    page ∈ reg.pages (2 ^ bits) ↔ 2 ^ bits ∣ page ∧ reg.beginAddr ≤ page ∧ page < reg.endAddr :=
  Lib.mem_pages (Nat.two_pow_pos bits) h.begin_dvd

/-- The pool between two calls. -/
structure PoolInv (bits : Nat) (p : RegPool) : Prop where
  pageSize : p.pageSize = 2 ^ bits
  wf : ∀ handle reg, p.items handle = some reg → reg.WF bits
  fresh : ∀ handle reg, p.items handle = some reg → handle < p.fresh
  stored : ∀ handle reg, p.items handle = some reg → p.regPool reg.beginAddr = some handle
  keyed : ∀ key handle, p.regPool key = some handle → ∃ reg, p.items handle = some reg ∧ reg.beginAddr = key
  global : ∀ page handle, p.regMap GLOBAL_POOL_KEY page = some handle ↔
    ∃ reg, p.items handle = some reg ∧ page ∈ reg.pages (2 ^ bits)
  comms : ∀ comm page handle, p.regMap comm page = some handle →
    ∃ reg, p.items handle = some reg ∧ page ∈ reg.pages (2 ^ bits)

theorem PoolInv.start (bits : Nat) : PoolInv bits (.start (2 ^ bits)) where
  pageSize := rfl
  wf := fun _ _ h => by cases h
  fresh := fun _ _ h => by cases h
  stored := fun _ _ h => by cases h
  keyed := fun _ _ h => by cases h
  global := fun _ _ => ⟨fun h => (by cases h), fun ⟨_, h, _⟩ => (by cases h)⟩
  comms := fun _ _ _ h => by cases h

theorem PoolInv.unique {p : RegPool} (h : PoolInv bits p) {handle handle' : Nat} {reg' : RegItem}
    (hreg : p.items handle = some reg) (hreg' : p.items handle' = some reg') (hpage : page ∈ reg.pages (2 ^ bits))
    (hpage' : page ∈ reg'.pages (2 ^ bits)) : handle = handle' := by
  have h₁ := (h.global page handle).2 ⟨reg, hreg, hpage⟩
  have h₂ := (h.global page handle').2 ⟨reg', hreg', hpage'⟩
  rw [h₁] at h₂
  exact some.inj h₂

theorem RegItem.WF.begin_mem (h : reg.WF bits) : reg.beginAddr ∈ reg.pages (2 ^ bits) :=
  h.mem_pages.2 ⟨h.begin_dvd, le_rfl, h.lt⟩

/-! ## Placing an item -/

/-- The item is there with these pages; the global map and the map of `comm` lead to it. -/
structure Placed (p p' : RegPool) (handle : Nat) (reg : RegItem) (comm : Nat) : Prop where
  pageSize : p'.pageSize = p.pageSize
  items : p'.items = update p.items handle (some reg)
  regPool : ∀ key, p'.regPool key =
    if key = reg.beginAddr then some handle else if p.regPool key = some handle then none else p.regPool key
  regMap : ∀ commKey page, p'.regMap commKey page =
    if (commKey = GLOBAL_POOL_KEY ∨ commKey = comm) ∧ page ∈ reg.pages p.pageSize then some handle else p.regMap commKey page
  fresh : handle < p'.fresh ∧ p.fresh ≤ p'.fresh

section Placed
variable {p p' : RegPool} {handle comm : Nat} {reg : RegItem}

theorem Placed.kept (hp : Placed p p' handle reg comm) (h : PoolInv bits p) (hwf : reg.WF bits)
    (hold : ∀ old, p.items handle = some old → ∀ page ∈ old.pages (2 ^ bits), page ∈ reg.pages (2 ^ bits))
    (hothers : ∀ other oreg, p.items other = some oreg → other ≠ handle → ∀ page ∈ oreg.pages (2 ^ bits),
      page ∉ reg.pages (2 ^ bits)) : PoolInv bits p' := by
  have hmap := hp.regMap
  rw [h.pageSize] at hmap
  have hself : p'.items handle = some reg := by rw [hp.items, update_self]
  have hother : ∀ other, other ≠ handle → p'.items other = p.items other := fun other hne => by rw [hp.items, update_of_ne hne]
  -- a page that led to an item still does
  have hkept : ∀ other oreg page, p.items other = some oreg → page ∈ oreg.pages (2 ^ bits) → page ∉ reg.pages (2 ^ bits) →
      other ≠ handle ∧ p'.items other = some oreg := by
    intro other oreg page horeg hpage hnot
    have hne : other ≠ handle := fun heq => hnot (hold oreg (heq ▸ horeg) page hpage)
    exact ⟨hne, by rw [hother other hne, horeg]⟩
  refine ⟨hp.pageSize.trans h.pageSize, fun other oreg horeg => ?_, fun other oreg horeg => ?_, fun other oreg horeg => ?_,
    fun key other hkey => ?_, fun page other => ?_, fun commKey page other hpage => ?_⟩
  · by_cases hne : other = handle
    · rw [hne, hself] at horeg
      cases horeg
      exact hwf
    · rw [hother other hne] at horeg
      exact h.wf other oreg horeg
  · by_cases hne : other = handle
    · rw [hne]
      exact hp.fresh.1
    · rw [hother other hne] at horeg
      exact (h.fresh other oreg horeg).trans_le hp.fresh.2
  · rw [hp.regPool]
    by_cases hne : other = handle
    · rw [hne, hself] at horeg
      cases horeg
      rw [if_pos rfl, hne]
    · rw [hother other hne] at horeg
      have hbegin : oreg.beginAddr ≠ reg.beginAddr := fun heq =>
        hothers other oreg horeg hne _ (h.wf other oreg horeg).begin_mem (heq ▸ hwf.begin_mem)
      rw [if_neg hbegin, h.stored other oreg horeg, if_neg (fun heq => hne (some.inj heq))]
  · rw [hp.regPool] at hkey
    split_ifs at hkey with hbegin hmoved
    · cases hkey
      exact ⟨reg, hself, hbegin.symm⟩
    · obtain ⟨oreg, horeg, hbegin'⟩ := h.keyed key other hkey
      exact ⟨oreg, by rw [hother other fun heq => hmoved (heq ▸ hkey), horeg], hbegin'⟩
  · rw [hmap]
    constructor
    · intro hpage
      split_ifs at hpage with hin
      · cases hpage
        exact ⟨reg, hself, hin.2⟩
      · obtain ⟨oreg, horeg, hmem⟩ := (h.global page other).1 hpage
        exact ⟨oreg, (hkept other oreg page horeg hmem fun hreg => hin ⟨.inl rfl, hreg⟩).2, hmem⟩
    · rintro ⟨oreg, horeg, hmem⟩
      by_cases hne : other = handle
      · rw [hne, hself] at horeg
        cases horeg
        rw [if_pos ⟨.inl rfl, hmem⟩, hne]
      · rw [hother other hne] at horeg
        rw [if_neg fun hin => hothers other oreg horeg hne page hmem hin.2]
        exact (h.global page other).2 ⟨oreg, horeg, hmem⟩
  · rw [hmap] at hpage
    split_ifs at hpage with hin
    · cases hpage
      exact ⟨reg, hself, hin.2⟩
    · obtain ⟨oreg, horeg, hmem⟩ := h.comms commKey page other hpage
      by_cases hne : other = handle
      · subst hne
        exact ⟨reg, hself, hold oreg horeg page hmem⟩
      · exact ⟨oreg, by rw [hother other hne, horeg], hmem⟩

variable {old : RegItem}

section

variable (h : PoolInv bits p) (hold : p.items handle = some old)
include h hold

theorem PoolInv.regPool_eq (key : Nat) : p.regPool key =
    if key = old.beginAddr then some handle else if p.regPool key = some handle then none else p.regPool key := by
  split_ifs with hkey hmoved
  · rw [hkey]
    exact h.stored handle old hold
  · obtain ⟨reg', hreg', hbegin'⟩ := h.keyed key handle hmoved
    rw [hold] at hreg'
    cases hreg'
    exact absurd hbegin'.symm hkey
  · rfl

theorem PoolInv.regMap_eq {new : List Nat} (hnew : page ∈ reg.pages (2 ^ bits) ↔ page ∈ old.pages (2 ^ bits) ∨ page ∈ new)
    (commKey : Nat) : (if commKey = GLOBAL_POOL_KEY ∧ page ∈ new then some handle else p.regMap commKey page) =
      if (commKey = GLOBAL_POOL_KEY ∨ commKey = GLOBAL_POOL_KEY) ∧ page ∈ reg.pages (2 ^ bits) then some handle
      else p.regMap commKey page := by
  by_cases hkey : commKey = GLOBAL_POOL_KEY
  · subst hkey
    by_cases hin : page ∈ new
    · rw [if_pos ⟨rfl, hin⟩, if_pos ⟨.inl rfl, hnew.2 (.inr hin)⟩]
    · rw [if_neg (fun hc => hin hc.2)]
      by_cases hpage : page ∈ old.pages (2 ^ bits)
      · rw [if_pos ⟨.inl rfl, hnew.2 (.inl hpage)⟩]
        exact (h.global page handle).2 ⟨old, hold, hpage⟩
      · rw [if_neg (fun hc => (hnew.1 hc.2).elim hpage hin)]
  · rw [if_neg (fun hc => hkey hc.1), if_neg (fun hc => hkey (or_self_iff.1 hc.1))]

theorem count_kept (refCount : Int) : PoolInv bits (p.store handle { old with refCount := refCount }) := by
  have hwf := h.wf handle old hold
  have hpages (page : Nat) : page ∈ ({ old with refCount := refCount } : RegItem).pages (2 ^ bits) ↔
      page ∈ old.pages (2 ^ bits) ∨ page ∈ ([] : List Nat) := by simp [RegItem.pages]
  have hplaced : Placed p (p.store handle { old with refCount := refCount }) handle
      { old with refCount := refCount } GLOBAL_POOL_KEY := by
    refine ⟨rfl, rfl, fun key => h.regPool_eq hold key, fun commKey page => ?_, h.fresh handle old hold, le_rfl⟩
    have hmap := h.regMap_eq hold (hpages page) commKey
    rw [if_neg fun hc => not_mem_nil hc.2] at hmap
    rwa [h.pageSize]
  refine hplaced.kept h ⟨hwf.begin_dvd, hwf.end_dvd, hwf.lt⟩ (fun old' hold' page hpage => ?_)
    fun other oreg horeg hne page hpage hnew => hne (h.unique horeg hold hpage hnew)
  rw [hold] at hold'
  cases hold'
  exact hpage

end

end Placed

/-! ## Registering -/

section Grow
variable {p : RegPool} {handle : Nat} {reg : RegItem}

theorem mapPages_regMap (p : RegPool) (commKey handle b e key page : Nat) : (p.mapPages commKey handle b e).regMap key page =
    if key = commKey ∧ page ∈ pages p.pageSize b e then some handle else p.regMap key page := by
  rw [RegPool.mapPages]
  dsimp only
  by_cases hkey : key = commKey
  · rw [hkey, update_self, updateAll_apply]
    simp only [true_and]
  · rw [update_of_ne hkey, if_neg (fun h => hkey h.1)]

/-- No other item has a page between the two addresses. -/
def Free (bits : Nat) (p : RegPool) (handle b e : Nat) : Prop :=
  ∀ other oreg, p.items other = some oreg → other ≠ handle → ∀ page ∈ oreg.pages (2 ^ bits), ¬ (b ≤ page ∧ page < e)

section

variable (h : PoolInv bits p) (hreg : p.items handle = some reg)
include h hreg

theorem growBackward_spec {b : Nat} (hb : 2 ^ bits ∣ b) (hfree : Free bits p handle b reg.endAddr) :
    ∃ p' reg', p.growBackward handle reg b = (p', reg', .success) ∧ PoolInv bits p' ∧
      p'.items = update p.items handle (some reg') ∧ reg' = { reg with beginAddr := min b reg.beginAddr } := by
  have hwf := h.wf handle reg hreg
  rw [RegPool.growBackward]
  by_cases hlt : b < reg.beginAddr
  case neg =>
    rw [if_neg hlt]
    refine ⟨p, reg, rfl, h, ?_, ?_⟩
    · rw [← hreg, update_eq_self]
    · rw [min_eq_right (not_lt.1 hlt)]
  rw [if_pos hlt]
  -- the key of the item is known, and the new one is free
  have hnode : ∀ q : RegPool, q.regPool = p.regPool → q.regPool reg.beginAddr = some handle := fun q hq => by
    rw [hq]
    exact h.stored handle reg hreg
  have hnone : p.regPool b = none := by
    cases hb' : p.regPool b with
    | none => rfl
    | some other =>
      obtain ⟨oreg, horeg, hbegin⟩ := h.keyed b other hb'
      have hpage := (h.wf other oreg horeg).begin_mem
      rw [hbegin] at hpage
      by_cases hne : other = handle
      · rw [hne, hreg] at horeg
        cases horeg
        exact absurd hlt (hbegin ▸ lt_irrefl _)
      · exact absurd ⟨Nat.le_refl b, hlt.trans hwf.lt⟩ (hfree other oreg horeg hne b hpage)
  set q := (p.store handle { reg with beginAddr := b }).mapPages GLOBAL_POOL_KEY handle b reg.beginAddr with hq
  have hpool : q.regPool = p.regPool := rfl
  dsimp only
  rw [hnode q hpool]
  dsimp only
  rw [if_neg (by rw [update_of_ne hlt.ne, hpool, hnone]; decide)]
  have hplaced : Placed p { q with regPool := update (update q.regPool reg.beginAddr none) b (some handle) } handle
      { reg with beginAddr := b } GLOBAL_POOL_KEY := by
    refine ⟨rfl, rfl, fun key => ?_, fun commKey page => ?_, h.fresh handle reg hreg, le_rfl⟩
    · dsimp only
      by_cases hkey : key = b
      · rw [hkey, update_self, if_pos rfl]
      · rw [update_of_ne hkey, if_neg hkey, hpool]
        by_cases hkey' : key = reg.beginAddr
        · rw [hkey', update_self, if_pos (h.stored handle reg hreg)]
        · rw [update_of_ne hkey', if_neg]
          intro hmoved
          obtain ⟨reg', hreg', hbegin⟩ := h.keyed key handle hmoved
          rw [hreg] at hreg'
          cases hreg'
          exact hkey' hbegin.symm
    · have hsize := h.pageSize
      rw [hq, mapPages_regMap]
      show (if commKey = GLOBAL_POOL_KEY ∧ page ∈ pages p.pageSize b reg.beginAddr then some handle else p.regMap commKey page) = _
      rw [hsize]
      apply h.regMap_eq hreg
      rw [Lib.mem_pages (Nat.two_pow_pos bits) hb, Lib.mem_pages (Nat.two_pow_pos bits) hb, hwf.mem_pages]
      have := hwf.lt
      dsimp only
      omega
  have hwf' : RegItem.WF bits { reg with beginAddr := b } := ⟨hb, hwf.end_dvd, hlt.trans hwf.lt⟩
  refine ⟨_, _, rfl, hplaced.kept h hwf' (fun old hold page hpage => ?_) (fun other oreg horeg hne page hpage hnew => ?_), rfl, ?_⟩
  · rw [hreg] at hold
    cases hold
    rw [hwf.mem_pages] at hpage
    rw [hwf'.mem_pages]
    exact ⟨hpage.1, hlt.le.trans hpage.2.1, hpage.2.2⟩
  · rw [hwf'.mem_pages] at hnew
    exact hfree other oreg horeg hne page hpage hnew.2
  · rw [min_eq_left hlt.le]

theorem growForward_spec {e : Nat} (he : 2 ^ bits ∣ e) (hfree : Free bits p handle reg.beginAddr e) :
    ∃ p' reg', p.growForward handle reg e = (p', reg') ∧ PoolInv bits p' ∧
      p'.items = update p.items handle (some reg') ∧ reg' = { reg with endAddr := max reg.endAddr e } := by
  have hwf := h.wf handle reg hreg
  rw [RegPool.growForward]
  by_cases hlt : reg.endAddr < e
  case neg =>
    rw [if_neg hlt]
    refine ⟨p, reg, rfl, h, ?_, ?_⟩
    · rw [← hreg, update_eq_self]
    · rw [max_eq_left (not_lt.1 hlt)]
  rw [if_pos hlt]
  have hwf' : RegItem.WF bits { reg with endAddr := e } := ⟨hwf.begin_dvd, he, hwf.lt.trans hlt⟩
  have hplaced : Placed p ((p.store handle { reg with endAddr := e }).mapPages GLOBAL_POOL_KEY handle reg.endAddr e) handle
      { reg with endAddr := e } GLOBAL_POOL_KEY := by
    refine ⟨rfl, rfl, fun key => ?_, fun commKey page => ?_, h.fresh handle reg hreg, le_rfl⟩
    · exact h.regPool_eq hreg key
    · have hsize := h.pageSize
      rw [mapPages_regMap]
      show (if commKey = GLOBAL_POOL_KEY ∧ page ∈ pages p.pageSize reg.endAddr e then some handle else p.regMap commKey page) = _
      rw [hsize]
      apply h.regMap_eq hreg
      rw [Lib.mem_pages (Nat.two_pow_pos bits) hwf.begin_dvd, Lib.mem_pages (Nat.two_pow_pos bits) hwf.end_dvd, hwf.mem_pages]
      have := hwf.lt
      dsimp only
      omega
  refine ⟨_, _, rfl, hplaced.kept h hwf' (fun old hold page hpage => ?_) (fun other oreg horeg hne page hpage hnew => ?_), rfl, ?_⟩
  · rw [hreg] at hold
    cases hold
    rw [hwf.mem_pages] at hpage
    rw [hwf'.mem_pages]
    exact ⟨hpage.1, hpage.2.1, hpage.2.2.trans hlt⟩
  · rw [hwf'.mem_pages] at hnew
    exact hfree other oreg horeg hne page hpage hnew.2
  · rw [max_eq_right hlt.le]

theorem mapRegItemPages_kept (comm : Nat) : PoolInv bits (p.mapRegItemPages comm handle reg) := by
  have hplaced : Placed p (p.mapRegItemPages comm handle reg) handle reg comm := by
    refine ⟨rfl, ?_, fun key => h.regPool_eq hreg key, fun commKey page => ?_, h.fresh handle reg hreg, le_rfl⟩
    · rw [← hreg, update_eq_self]
      rfl
    · rw [RegPool.mapRegItemPages, mapPages_regMap]
      by_cases hin : page ∈ reg.pages p.pageSize
      · by_cases hkey : commKey = comm
        · rw [if_pos ⟨hkey, hin⟩, if_pos ⟨.inr hkey, hin⟩]
        · rw [if_neg (fun hc => hkey hc.1)]
          by_cases hglobal : commKey = GLOBAL_POOL_KEY
          · rw [if_pos ⟨.inl hglobal, hin⟩, hglobal]
            rw [RegItem.pages, h.pageSize] at hin
            exact (h.global page handle).2 ⟨reg, hreg, hin⟩
          · rw [if_neg (fun hc => hc.1.elim hglobal hkey)]
      · rw [if_neg (fun hc => hin hc.2), if_neg (fun hc => hin hc.2)]
  refine hplaced.kept h (h.wf handle reg hreg) (fun old hold page hpage => ?_) fun other oreg horeg hne page hpage hnew => ?_
  · rw [hreg] at hold
    cases hold
    exact hpage
  · exact hne (h.unique horeg hreg hpage hnew)

end

/-- What is placed for a buffer: an item that has its pages, new or grown. -/
structure Covering (p p' : RegPool) (handle : Nat) (reg : RegItem) (b e : Nat) : Prop where
  items : p'.items = update p.items handle (some reg)
  begin_le : reg.beginAddr ≤ b
  le_end : e ≤ reg.endAddr
  counts : p.items handle = none ∧ reg.refCount = 1 ∨
    ∃ old, p.items handle = some old ∧ reg.refCount = old.refCount + 1 ∧ reg.beginAddr ≤ old.beginAddr ∧ old.endAddr ≤ reg.endAddr

theorem registerExisting_spec (h : PoolInv bits p) (hreg : p.items handle = some reg) {b e : Nat} (hb : 2 ^ bits ∣ b) (he : 2 ^ bits ∣ e)
    (hfree : Free bits p handle (min b reg.beginAddr) (max reg.endAddr e)) (comm : Nat) :
    ∃ p' reg', p.registerExisting comm handle reg b e = (p', .success) ∧ PoolInv bits p' ∧ Covering p p' handle reg' b e := by
  rw [RegPool.registerExisting]
  -- the item counts the buffer
  let counted : RegItem := { reg with refCount := reg.refCount + 1 }
  have hinv : PoolInv bits (p.store handle counted) := count_kept h hreg _
  have hitems : (p.store handle counted).items = update p.items handle (some counted) := rfl
  have hfree₁ : Free bits (p.store handle counted) handle b counted.endAddr := fun other oreg horeg hne page hpage hin => by
    have horeg' : p.items other = some oreg := by rwa [hitems, update_of_ne hne] at horeg
    exact hfree other oreg horeg' hne page hpage ⟨(min_le_left _ _).trans hin.1, hin.2.trans_le (le_max_left _ _)⟩
  -- it grows to both sides
  obtain ⟨p₁, reg₁, hback, hinv₁, hitems₁, rfl⟩ := growBackward_spec hinv (by rw [hitems, update_self]) hb hfree₁
  have hitems₁' : p₁.items = update p.items handle (some { counted with beginAddr := min b counted.beginAddr }) := by
    rw [hitems₁, hitems, update_idem]
  have hfree₂ : Free bits p₁ handle (min b counted.beginAddr) e := fun other oreg horeg hne page hpage hin => by
    have horeg' : p.items other = some oreg := by rwa [hitems₁', update_of_ne hne] at horeg
    exact hfree other oreg horeg' hne page hpage ⟨hin.1, hin.2.trans_le (le_max_right _ _)⟩
  obtain ⟨p₂, reg₂, hforward, hinv₂, hitems₂, rfl⟩ := growForward_spec hinv₁ (by rw [hitems₁', update_self]) he hfree₂
  have hitems₂' := hitems₂
  rw [hitems₁', update_idem] at hitems₂'
  rw [hback]
  dsimp only
  rw [if_neg (by decide), hforward]
  refine ⟨_, { counted with beginAddr := min b reg.beginAddr, endAddr := max reg.endAddr e }, rfl, ?_, ?_⟩
  · split_ifs
    · exact mapRegItemPages_kept hinv₂ (by rw [hitems₂, update_self]) comm
    · exact hinv₂
  · refine ⟨?_, min_le_left _ _, le_max_right _ _, .inr ⟨reg, hreg, rfl, min_le_right _ _, le_max_left _ _⟩⟩
    split_ifs
    · exact hitems₂'
    · exact hitems₂'

theorem registerNew_spec (h : PoolInv bits p) {b e : Nat} (hb : 2 ^ bits ∣ b) (he : 2 ^ bits ∣ e) (hlt : b < e)
    (hnone : ∀ page ∈ pages (2 ^ bits) b e, p.regMap GLOBAL_POOL_KEY page = none) (comm : Nat) :
    ∃ p' reg', p.registerNew comm b e = some (p', .success) ∧ PoolInv bits p' ∧ Covering p p' p.fresh reg' b e := by
  have hwf : RegItem.WF bits ⟨b, e, 1⟩ := ⟨hb, he, hlt⟩
  have hfresh : p.items p.fresh = none := by
    cases hitem : p.items p.fresh with
    | none => rfl
    | some reg => exact absurd (h.fresh _ _ hitem) (lt_irrefl _)
  have hkey : p.regPool b = none := by
    cases hb' : p.regPool b with
    | none => rfl
    | some other =>
      obtain ⟨oreg, horeg, hbegin⟩ := h.keyed b other hb'
      have hpage := (h.wf other oreg horeg).begin_mem
      rw [hbegin] at hpage
      have hglobal := (h.global b other).2 ⟨oreg, horeg, hpage⟩
      rw [hnone b hwf.begin_mem] at hglobal
      cases hglobal
  rw [RegPool.registerNew, RegPool.emplace, hkey]
  dsimp only
  rw [update_self]
  set q : RegPool := { p with
    regPool := update p.regPool b (some p.fresh), items := update p.items p.fresh (some ⟨b, e, 1⟩), fresh := p.fresh + 1 } with hq
  have hplaced : Placed p (q.mapRegItemPages GLOBAL_POOL_KEY p.fresh ⟨b, e, 1⟩) p.fresh ⟨b, e, 1⟩ GLOBAL_POOL_KEY := by
    refine ⟨rfl, rfl, fun key => ?_, fun commKey page => ?_, Nat.lt_succ_self _, Nat.le_succ _⟩
    · show update p.regPool b (some p.fresh) key = _
      by_cases hkey' : key = b
      · rw [hkey', update_self, if_pos rfl]
      · rw [update_of_ne hkey', if_neg hkey', if_neg]
        intro hmoved
        obtain ⟨reg, hreg, -⟩ := h.keyed key _ hmoved
        rw [hfresh] at hreg
        cases hreg
    · rw [RegPool.mapRegItemPages, mapPages_regMap]
      by_cases hin : commKey = GLOBAL_POOL_KEY ∧ page ∈ pages p.pageSize b e
      · rw [if_pos hin, if_pos ⟨.inl hin.1, hin.2⟩]
      · rw [if_neg hin, if_neg fun hc => hin ⟨or_self_iff.1 hc.1, hc.2⟩]
  have hinv := hplaced.kept h hwf (fun old hold => by rw [hfresh] at hold; cases hold)
    fun other oreg horeg _ page hpage hnew => by
      have hglobal := (h.global page other).2 ⟨oreg, horeg, hpage⟩
      rw [hnone page hnew] at hglobal
      cases hglobal
  refine ⟨_, ⟨b, e, 1⟩, rfl, ?_, ?_⟩
  · split_ifs
    · exact mapRegItemPages_kept hinv (by rw [hplaced.items, update_self]) comm
    · exact hinv
  · refine ⟨?_, le_rfl, le_rfl, .inl ⟨hfresh, rfl⟩⟩
    split_ifs
    · exact hplaced.items
    · exact hplaced.items

def Meets (p : RegPool) (data length : Nat) (reg : RegItem) : Prop :=
  reg.beginAddr < (p.getPagedAddr data length).2 ∧ (p.getPagedAddr data length).1 < reg.endAddr

theorem registerBuffer_spec (hbits : bits < 64) (h : PoolInv bits p) {data length : Nat} (hdata : data ≠ 0) (hlength : length ≠ 0)
    (hfits : data + length + 2 ^ bits - 1 < 2 ^ 64)
    (hone : ∀ handle handle' reg reg', p.items handle = some reg → p.items handle' = some reg' → Meets p data length reg →
      Meets p data length reg' → handle = handle') (comm : Nat) :
    ∃ p' handle reg, p.registerBuffer comm data length = some (p', .success) ∧ PoolInv bits p' ∧
      Covering p p' handle reg (pageOf (2 ^ bits) data) (pageUp (2 ^ bits) (data + length)) := by
  have hpos := Nat.two_pow_pos bits
  have hlt64 : data < 2 ^ 64 := by omega
  have hb := dvd_pageOf hbits hlt64
  have he : 2 ^ bits ∣ pageUp (2 ^ bits) (data + length) := dvd_pageUp hbits
  have hbe : pageOf (2 ^ bits) data < pageUp (2 ^ bits) (data + length) := by
    have hle := pageOf_le hbits hlt64
    have hup := le_pageUp hbits hfits
    omega
  rw [RegPool.registerBuffer, if_neg (not_or.2 ⟨hdata, hlength⟩), RegPool.getPagedAddr]
  simp only [Meets, RegPool.getPagedAddr] at hone
  rw [h.pageSize] at hone ⊢
  dsimp only
  generalize pageOf (2 ^ bits) data = b at *
  generalize pageUp (2 ^ bits) (data + length) = e at *
  cases hfind : (pages (2 ^ bits) b e).findSome? (p.regMap GLOBAL_POOL_KEY) with
  | some existing =>
    obtain ⟨page, hpage, hmap⟩ := exists_of_findSome?_eq_some hfind
    obtain ⟨reg, hreg, hmem⟩ := (h.global page existing).1 hmap
    have hwf := h.wf existing reg hreg
    have hin := (Lib.mem_pages hpos hb).1 hpage
    have hin' := hwf.mem_pages.1 hmem
    have hmeets : reg.beginAddr < e ∧ b < reg.endAddr := ⟨hin'.2.1.trans_lt hin.2.2, hin.2.1.trans_lt hin'.2.2⟩
    have hfree : Free bits p existing (min b reg.beginAddr) (max reg.endAddr e) := fun other oreg horeg hne q hq hrange => by
      have hq' := (h.wf other oreg horeg).mem_pages.1 hq
      -- a page of the grown item is one of the buffer or one it had
      rcases lt_or_ge q reg.beginAddr with hlow | hlow
      · exact hne (hone other existing oreg reg horeg hreg (by omega) hmeets)
      · rcases lt_or_ge q reg.endAddr with hhigh | hhigh
        · exact hne (h.unique horeg hreg hq (hwf.mem_pages.2 ⟨hq'.1, hlow, hhigh⟩))
        · exact hne (hone other existing oreg reg horeg hreg (by omega) hmeets)
    obtain ⟨p', reg', hrun, hinv, hcover⟩ := registerExisting_spec h hreg hb he hfree comm
    refine ⟨p', existing, reg', ?_, hinv, hcover⟩
    dsimp only
    rw [hreg, map_some, hrun]
  | none =>
    have hnone : ∀ page ∈ pages (2 ^ bits) b e, p.regMap GLOBAL_POOL_KEY page = none := findSome?_eq_none_iff.1 hfind
    obtain ⟨p', reg', hrun, hinv, hcover⟩ := registerNew_spec h hb he hbe hnone comm
    exact ⟨p', p.fresh, reg', hrun, hinv, hcover⟩

end Grow

/-! ## Deregistering -/

section Deregister
variable {p : RegPool} {handle : Nat} {reg : RegItem}

theorem erasePages_kept (h : PoolInv bits p) {comm : Nat} (hcomm : comm ≠ GLOBAL_POOL_KEY) : PoolInv bits (p.erasePages comm reg) := by
  refine ⟨h.pageSize, h.wf, h.fresh, h.stored, h.keyed, fun page other => ?_, fun commKey page other hpage => ?_⟩
  · rw [RegPool.erasePages]
    dsimp only
    rw [update_of_ne hcomm.symm]
    exact h.global page other
  · rw [RegPool.erasePages] at hpage
    dsimp only at hpage
    by_cases hkey : commKey = comm
    · rw [hkey, update_self, updateAll_apply] at hpage
      split_ifs at hpage
      exact h.comms comm page other hpage
    · rw [update_of_ne hkey] at hpage
      exact h.comms commKey page other hpage

theorem eraseItem_kept (h : PoolInv bits p) (hreg : p.items handle = some reg) : PoolInv bits (p.eraseItem handle reg) := by
  have hgone : ∀ other oreg, (p.eraseItem handle reg).items other = some oreg → other ≠ handle ∧ p.items other = some oreg := by
    intro other oreg horeg
    by_cases hne : other = handle
    · rw [hne, RegPool.eraseItem] at horeg
      dsimp only at horeg
      rw [update_self] at horeg
      cases horeg
    · rw [RegPool.eraseItem] at horeg
      dsimp only at horeg
      rw [update_of_ne hne] at horeg
      exact ⟨hne, horeg⟩
  have hstays : ∀ other oreg, other ≠ handle → p.items other = some oreg → (p.eraseItem handle reg).items other = some oreg := by
    intro other oreg hne horeg
    rw [RegPool.eraseItem]
    dsimp only
    rw [update_of_ne hne, horeg]
  -- an item that shares no page with the one freed keeps its map entries
  have hmap : ∀ commKey page other, (p.eraseItem handle reg).regMap commKey page = some other ↔
      other ≠ handle ∧ p.regMap commKey page = some other := by
    intro commKey page other
    show (if page ∈ pages p.pageSize reg.beginAddr reg.endAddr ∧ p.regMap commKey page = some handle then none
      else p.regMap commKey page) = some other ↔ _
    split_ifs with hc
    · rw [hc.2]
      constructor
      · intro hnone
        cases hnone
      · rintro ⟨hne, heq⟩
        exact absurd (some.inj heq).symm hne
    · constructor
      · intro heq
        refine ⟨fun hne => hc ⟨?_, hne ▸ heq⟩, heq⟩
        obtain ⟨reg', hreg', hpage⟩ := h.comms commKey page handle (hne ▸ heq)
        rw [hreg] at hreg'
        cases hreg'
        rw [h.pageSize]
        exact hpage
      · rintro ⟨-, heq⟩
        exact heq
  refine ⟨h.pageSize, fun other oreg horeg => h.wf other oreg (hgone other oreg horeg).2,
    fun other oreg horeg => h.fresh other oreg (hgone other oreg horeg).2, fun other oreg horeg => ?_, fun key other hkey => ?_,
    fun page other => ?_, fun commKey page other hpage => ?_⟩
  · obtain ⟨hne, horeg'⟩ := hgone other oreg horeg
    have hstored := h.stored other oreg horeg'
    show update p.regPool reg.beginAddr none oreg.beginAddr = some other
    rw [update_of_ne, hstored]
    intro heq
    rw [heq, h.stored handle reg hreg] at hstored
    exact hne (some.inj hstored).symm
  · have hkey' : update p.regPool reg.beginAddr none key = some other := hkey
    by_cases heq : key = reg.beginAddr
    · rw [heq, update_self] at hkey'
      cases hkey'
    · rw [update_of_ne heq] at hkey'
      obtain ⟨oreg, horeg, hbegin⟩ := h.keyed key other hkey'
      refine ⟨oreg, hstays other oreg (fun hne => heq ?_) horeg, hbegin⟩
      rw [hne, hreg] at horeg
      cases horeg
      exact hbegin.symm
  · rw [hmap, h.global]
    constructor
    · rintro ⟨hne, oreg, horeg, hpage⟩
      exact ⟨oreg, hstays other oreg hne horeg, hpage⟩
    · rintro ⟨oreg, horeg, hpage⟩
      obtain ⟨hne, horeg'⟩ := hgone other oreg horeg
      exact ⟨hne, oreg, horeg', hpage⟩
  · obtain ⟨hne, hpage'⟩ := (hmap commKey page other).1 hpage
    obtain ⟨oreg, horeg, hmem⟩ := h.comms commKey page other hpage'
    exact ⟨oreg, hstays other oreg hne horeg, hmem⟩

theorem deregisterBuffer_spec (h : PoolInv bits p) (hreg : p.items handle = some reg) (comm : Nat) (netHandles p2pHandles : Result) :
    ∃ p' result, p.deregisterBuffer comm handle netHandles p2pHandles = some (p', result) ∧ PoolInv bits p' ∧
      (p'.items = update p.items handle (some { reg with refCount := reg.refCount - 1 }) ∧
          (reg.refCount ≤ 1 → ¬ (netHandles.accepted ∧ p2pHandles.accepted)) ∨
        p'.items = update p.items handle none ∧ reg.refCount ≤ 1) := by
  let counted : RegItem := { reg with refCount := reg.refCount - 1 }
  have hinv : PoolInv bits (p.store handle counted) := count_kept h hreg _
  have hitems : (p.store handle counted).items = update p.items handle (some counted) := rfl
  have herased : PoolInv bits (if comm ≠ GLOBAL_POOL_KEY then (p.store handle counted).erasePages comm counted else
      p.store handle counted) ∧ (if comm ≠ GLOBAL_POOL_KEY then (p.store handle counted).erasePages comm counted else
      p.store handle counted).items = update p.items handle (some counted) := by
    split_ifs with hcomm
    · exact ⟨erasePages_kept hinv hcomm, hitems⟩
    · exact ⟨hinv, hitems⟩
  rw [RegPool.deregisterBuffer, hreg, map_some]
  dsimp only
  rw [if_neg (not_not.2 (h.stored handle reg hreg))]
  obtain ⟨hinv', hitems'⟩ := herased
  generalize (if comm ≠ GLOBAL_POOL_KEY then (p.store handle counted).erasePages comm counted else
    p.store handle counted) = q at *
  split_ifs with hpos hnet hp2p
  · exact ⟨q, _, rfl, hinv', .inl ⟨hitems', fun hle => by omega⟩⟩
  · refine ⟨_, _, rfl, eraseItem_kept hinv' (by rw [hitems', update_self]), .inr ⟨?_, by omega⟩⟩
    show update q.items handle none = _
    rw [hitems', update_idem]
  · exact ⟨q, _, rfl, hinv', .inl ⟨hitems', fun _ hacc => hp2p hacc.2⟩⟩
  · exact ⟨q, _, rfl, hinv', .inl ⟨hitems', fun _ hacc => hnet hacc.1⟩⟩

end Deregister

theorem PoolInv.getItem (hbits : bits < 64) {p : RegPool} (h : PoolInv bits p) {handle : Nat}
    (hreg : p.items handle = some reg) {addr : Nat} (haddr : addr < 2 ^ 64) (hle : reg.beginAddr ≤ addr) (hlt : addr < reg.endAddr) (comm : Nat) :
    p.getItem comm addr = some handle ∧ reg.beginAddr ≤ pageOf (2 ^ bits) addr ∧ pageOf (2 ^ bits) addr < reg.endAddr := by
  have hwf := h.wf handle reg hreg
  have hrange := pageOf_mem hbits hwf.begin_dvd haddr hle hlt
  have hpage : pageOf (2 ^ bits) addr ∈ reg.pages (2 ^ bits) := hwf.mem_pages.2 ⟨dvd_pageOf hbits haddr, hrange⟩
  have hglobal := (h.global _ handle).2 ⟨reg, hreg, hpage⟩
  refine ⟨?_, hrange⟩
  rw [RegPool.getItem, RegPool.getPagedAddr, h.pageSize]
  split_ifs
  · cases hcomm : p.regMap comm (pageOf (2 ^ bits) addr) with
    | none => rw [none_or, hglobal]
    | some other =>
      obtain ⟨oreg, horeg, hmem⟩ := h.comms comm _ other hcomm
      rw [some_or, h.unique horeg hreg hmem hpage]
  · exact hglobal

/-! ## Runs -/

namespace World

def Live (w : World) (handle : Nat) (reg : RegItem) : Prop :=
  w.pool.items handle = some reg ∧ w.pool.regPool reg.beginAddr = some handle

/-- The maps are right, and the registered buffers are covered. -/
structure Good (w : World) : Prop where
  mapped : ∀ comm page handle, w.pool.regMap comm page = some handle →
    ∃ reg, w.Live handle reg ∧ reg.beginAddr ≤ page ∧ page < reg.endAddr
  keyed : ∀ key handle, w.pool.regPool key = some handle → ∃ reg, w.Live handle reg ∧ reg.beginAddr = key
  disjoint : ∀ handle handle' reg reg', w.Live handle reg → w.Live handle' reg' → handle ≠ handle' →
    reg.endAddr ≤ reg'.beginAddr ∨ reg'.endAddr ≤ reg.beginAddr
  covered : ∀ buffer ∈ w.registered, ∀ addr, buffer.data ≤ addr → addr < buffer.data + buffer.length →
    ∀ comm, comm = buffer.comm ∨ comm = GLOBAL_POOL_KEY → ∃ handle reg, w.pool.getItem comm addr = some handle ∧
      w.Live handle reg ∧ reg.beginAddr ≤ pageOf w.pool.pageSize addr ∧ pageOf w.pool.pageSize addr < reg.endAddr

/-- The pages of a new buffer do not wrap and meet one item at most. An item without buffers, which only stays when releasing it
has failed, is not released in vain again. -/
def Apart (w : World) : Call → Prop
  | .register _ data length => data.toNat ≠ 0 → length.toNat ≠ 0 → data.toNat + length.toNat + w.pool.pageSize - 1 < 2 ^ 64 ∧
      ∀ handle handle' reg reg', w.pool.items handle = some reg → w.pool.items handle' = some reg' →
        Meets w.pool data.toNat length.toNat reg → Meets w.pool data.toNat length.toNat reg' → handle = handle'
  | .deregister _ _ buffer netHandles p2pHandles => buffer = none → netHandles.accepted ∧ p2pHandles.accepted

/-- The item of a buffer holds all its pages. -/
structure Held (w : World) (buffer : Registration) (handle : Nat) (reg : RegItem) : Prop where
  owns : buffer.handle = some handle
  item : w.pool.items handle = some reg
  begin_le : reg.beginAddr ≤ buffer.data
  le_end : buffer.data + buffer.length ≤ reg.endAddr
  fits : buffer.data + buffer.length ≤ 2 ^ 64

/-- Each item counts its buffers. -/
structure Inv (bits : Nat) (w : World) : Prop where
  pool : PoolInv bits w.pool
  counts : ∀ handle reg, w.pool.items handle = some reg → reg.refCount = w.registered.countP (·.handle = some handle)
  held : ∀ buffer ∈ w.registered, ∃ handle reg, w.Held buffer handle reg

variable {w w' : World}

theorem Inv.start (bits : Nat) : Inv bits (.start (2 ^ bits)) where
  pool := .start bits
  counts := fun _ _ h => by cases h
  held := fun _ h => by cases h

theorem Inv.live (h : Inv bits w) {handle : Nat} : w.Live handle reg ↔ w.pool.items handle = some reg :=
  ⟨fun hlive => hlive.1, fun hreg => ⟨hreg, h.pool.stored handle reg hreg⟩⟩

theorem Inv.good (hbits : bits < 64) (h : Inv bits w) : w.Good where
  mapped comm page handle hpage := by
    obtain ⟨reg, hreg, hmem⟩ := h.pool.comms comm page handle hpage
    exact ⟨reg, h.live.2 hreg, ((h.pool.wf handle reg hreg).mem_pages.1 hmem).2⟩
  keyed key handle hkey := by
    obtain ⟨reg, hreg, hbegin⟩ := h.pool.keyed key handle hkey
    exact ⟨reg, h.live.2 hreg, hbegin⟩
  disjoint handle handle' reg reg' hreg hreg' hne := by
    rw [h.live] at hreg hreg'
    have hwf := h.pool.wf handle reg hreg
    have hwf' := h.pool.wf handle' reg' hreg'
    by_contra hmeet
    obtain ⟨hlt, hlt'⟩ := not_or.1 hmeet
    obtain ⟨page, hpage, hpage'⟩ := shared_page (Nat.two_pow_pos bits) hwf.begin_dvd hwf'.begin_dvd hwf.lt hwf'.lt
      (not_le.1 hlt') (not_le.1 hlt)
    exact hne (h.pool.unique hreg hreg' hpage hpage')
  covered buffer hbuffer addr hle hlt comm _ := by
    obtain ⟨handle, reg, hheld⟩ := h.held buffer hbuffer
    have hitem := h.pool.getItem hbits hheld.item (hlt.trans_le hheld.fits) (hheld.begin_le.trans hle) (hlt.trans_le hheld.le_end) comm
    rw [h.pool.pageSize]
    exact ⟨handle, reg, hitem.1, h.live.2 hheld.item, hitem.2⟩

/-! ### One call -/

theorem Inv.register (hbits : bits < 64) (h : Inv bits w) {comm : Nat} {data length : UInt64}
    (hapart : w.Apart (.register comm data length)) (hstep : w.step (.register comm data length) = some w') : Inv bits w' := by
  rw [World.step] at hstep
  by_cases hnull : data.toNat = 0 ∨ length.toNat = 0
  · rw [RegPool.registerBuffer, if_pos hnull, map_some] at hstep
    dsimp only at hstep
    rw [if_pos (by tauto)] at hstep
    cases hstep
    exact h
  obtain ⟨hdata, hlength⟩ := not_or.1 hnull
  obtain ⟨hfits, hone⟩ := hapart hdata hlength
  rw [h.pool.pageSize] at hfits
  obtain ⟨p', handle, reg, hrun, hinv, hcover⟩ := registerBuffer_spec hbits h.pool hdata hlength hfits hone comm
  rw [hrun, map_some] at hstep
  dsimp only at hstep
  rw [if_neg (by simp [hdata, hlength])] at hstep
  cases hstep
  have hpos := Nat.two_pow_pos bits
  have hlow : pageOf (2 ^ bits) data.toNat ≤ data.toNat := pageOf_le hbits (by omega)
  have hhigh := le_pageUp hbits hfits
  have hself : p'.items handle = some reg := by rw [hcover.items, update_self]
  have hbegin := hcover.begin_le.trans hlow
  have hend := hhigh.trans hcover.le_end
  -- the handle of the buffer is that of the item
  have hitem : p'.getItem comm data.toNat = some handle := (hinv.getItem hbits hself (by omega) hbegin (by omega) comm).1
  have hkept : ∀ other oreg, other ≠ handle → (p'.items other = some oreg ↔ w.pool.items other = some oreg) :=
    fun other oreg hne => by rw [hcover.items, update_of_ne hne]
  refine ⟨hinv, fun other oreg horeg => ?_, fun buffer hbuffer => ?_⟩
  · rw [hitem, countP_cons]
    by_cases hne : other = handle
    · subst hne
      rw [hself] at horeg
      cases horeg
      rcases hcover.counts with ⟨hnone, hcount⟩ | ⟨old, hold, hcount, -⟩
      · -- a new item has no buffers yet
        have hzero : w.registered.countP (·.handle = some other) = 0 := by
          rw [countP_eq_zero]
          intro buffer hbuffer
          obtain ⟨handle', reg', hheld⟩ := h.held buffer hbuffer
          rw [hheld.owns, decide_eq_true_eq]
          intro heq
          have hitem' := hheld.item
          rw [some.inj heq, hnone] at hitem'
          cases hitem'
        rw [hcount, hzero]
        simp
      · rw [hcount, h.counts other old hold]
        simp
    · rw [h.counts other oreg ((hkept other oreg hne).1 horeg)]
      simp [Ne.symm hne]
  · rcases mem_cons.1 hbuffer with rfl | hbuffer
    · have hfits' : data.toNat + length.toNat ≤ 2 ^ 64 := by omega
      exact ⟨handle, reg, hitem, hself, hbegin, hend, hfits'⟩
    · obtain ⟨handle', reg', hheld⟩ := h.held buffer hbuffer
      by_cases hne : handle' = handle
      · subst hne
        rcases hcover.counts with ⟨hnone, -⟩ | ⟨old, hold, -, hgrown, hgrown'⟩
        · have hitem' := hheld.item
          rw [hnone] at hitem'
          cases hitem'
        · have hitem' := hheld.item
          rw [hold] at hitem'
          cases hitem'
          exact ⟨handle', reg, hheld.owns, hself, hgrown.trans hheld.begin_le, hheld.le_end.trans hgrown', hheld.fits⟩
      · exact ⟨handle', reg', hheld.owns, (hkept handle' reg' hne).2 hheld.item, hheld.begin_le, hheld.le_end, hheld.fits⟩

theorem Inv.deregister (h : Inv bits w) {comm handle : Nat} {buffer : Option Registration} {netHandles p2pHandles : Result}
    (hapart : w.Apart (.deregister comm handle buffer netHandles p2pHandles))
    (hstep : w.step (.deregister comm handle buffer netHandles p2pHandles) = some w') : Inv bits w' := by
  rw [World.step] at hstep
  split_ifs at hstep with hholds
  cases hreg : w.pool.items handle with
  | none =>
    rw [RegPool.deregisterBuffer, hreg] at hstep
    cases hstep
  | some reg =>
    obtain ⟨p', result, hrun, hinv, hout⟩ := deregisterBuffer_spec h.pool hreg comm netHandles p2pHandles
    rw [hrun, map_some] at hstep
    cases hstep
    have hcount := h.counts handle reg hreg
    -- what is left of the buffers: one less for the item, if one was named
    have hsub : ∀ b ∈ buffer.elim w.registered w.registered.erase, b ∈ w.registered := fun b hb => by
      cases buffer with
      | none => exact hb
      | some buffer => exact mem_of_mem_erase hb
    have hothers : ∀ other, other ≠ handle → (buffer.elim w.registered w.registered.erase).countP (·.handle = some other) =
        w.registered.countP (·.handle = some other) := fun other hne => by
      cases buffer with
      | none => rfl
      | some buffer =>
        rw [(perm_cons_erase hholds.1).countP_eq, countP_cons, hholds.2]
        simp [Ne.symm hne]
    have hnone : buffer = none → w.registered.countP (·.handle = some handle) = 0 := fun hbuffer => by
      subst hbuffer
      rw [countP_eq_zero]
      intro b hb
      rw [decide_eq_true_eq]
      exact hholds b hb
    have hleft : (buffer.elim w.registered w.registered.erase).countP (·.handle = some handle) =
        w.registered.countP (·.handle = some handle) - 1 := by
      cases buffer with
      | none => rw [elim_none, hnone rfl]
      | some buffer =>
        rw [(perm_cons_erase hholds.1).countP_eq, countP_cons, hholds.2]
        simp
    rcases hout with ⟨hitems, hfailed⟩ | ⟨hitems, hlast⟩
    · -- the item stays
      have hself : p'.items handle = some { reg with refCount := reg.refCount - 1 } := by rw [hitems, update_self]
      have hkept : ∀ other, other ≠ handle → p'.items other = w.pool.items other := fun other hne => by
        rw [hitems, update_of_ne hne]
      refine ⟨hinv, fun other oreg horeg => ?_, fun b hb => ?_⟩
      · by_cases hne : other = handle
        · subst hne
          rw [hself] at horeg
          cases horeg
          have hsome : 0 < w.registered.countP (·.handle = some other) := by
            cases buffer with
            | none =>
              rw [hnone rfl] at hcount
              exact absurd (hapart rfl) (hfailed (by omega))
            | some buffer =>
              rw [countP_pos_iff]
              exact ⟨buffer, hholds.1, decide_eq_true hholds.2⟩
          dsimp only
          omega
        · rw [hkept other hne] at horeg
          rw [hothers other hne]
          exact h.counts other oreg horeg
      · obtain ⟨handle', reg', hheld⟩ := h.held b (hsub b hb)
        by_cases hne : handle' = handle
        · subst hne
          have hitem := hheld.item
          rw [hreg] at hitem
          cases hitem
          exact ⟨handle', _, hheld.owns, hself, hheld.begin_le, hheld.le_end, hheld.fits⟩
        · exact ⟨handle', reg', hheld.owns, (hkept handle' hne).trans hheld.item, hheld.begin_le, hheld.le_end, hheld.fits⟩
    · -- the item goes, and no buffer had it but the one
      have hkept : ∀ other, other ≠ handle → p'.items other = w.pool.items other := fun other hne => by
        rw [hitems, update_of_ne hne]
      refine ⟨hinv, fun other oreg horeg => ?_, fun b hb => ?_⟩
      · have hne : other ≠ handle := fun heq => by
          rw [heq, hitems, update_self] at horeg
          cases horeg
        rw [hothers other hne]
        exact h.counts other oreg ((hkept other hne).symm.trans horeg)
      · obtain ⟨handle', reg', hheld⟩ := h.held b (hsub b hb)
        have hne : handle' ≠ handle := fun heq => by
          have hpos : 0 < (buffer.elim w.registered w.registered.erase).countP (·.handle = some handle) := by
            rw [countP_pos_iff]
            exact ⟨b, hb, decide_eq_true (heq ▸ hheld.owns)⟩
          omega
        exact ⟨handle', reg', hheld.owns, (hkept handle' hne).trans hheld.item, hheld.begin_le, hheld.le_end, hheld.fits⟩

theorem Inv.step (hbits : bits < 64) (h : Inv bits w) {call : Call} (hapart : w.Apart call) (hstep : w.step call = some w') :
    Inv bits w' := by
  cases call with
  | register comm data length => exact h.register hbits hapart hstep
  | deregister comm handle buffer netHandles p2pHandles => exact h.deregister hapart hstep

end World

/-- **The pool covers its buffers** as long as a new buffer meets one item at most: each map leads to live items with the page, items
are stored under their first pages and share none, and `getItem` finds an item for every address of a registered buffer. -/
theorem pool_good (bits : Fin 64) {w : World} (h : Reach World.step World.Apart (World.start (2 ^ bits.val)) w) : w.Good :=
  (h.invariant (World.Inv.start bits) fun _ _ _ hinv hapart hstep => hinv.step bits.isLt hapart hstep).good bits.isLt

/-- A buffer within a page. -/
theorem pool_good_onePage : ∃ w : World, w.registered.length = 1 ∧ w.Good := by
  have hrun : ((World.start (2 ^ (12 : Fin 64).val)).step (.register 7 0x1234 0x100)).map (·.registered.length) = some 1 := by decide
  obtain ⟨w, hstep, hlength⟩ := map_eq_some_iff.1 hrun
  have hapart : (World.start (2 ^ (12 : Fin 64).val)).Apart (.register 7 0x1234 0x100) :=
    fun _ _ => ⟨by decide, fun _ _ _ _ hreg => by cases hreg⟩
  exact ⟨w, hlength, pool_good 12 (.next _ .init hapart hstep)⟩

/-- Two buffers a page apart and one over both. -/
def bridged : List Call := [.register 0 0x1000 0x1000, .register 0 0x3000 0x1000, .register 0 0x1000 0x3000]

/-- The first item grows over the second one. -/
theorem pool_good_counterexample : ∃ w, Reach World.step (fun _ _ => True) (World.start (2 ^ (12 : Fin 64).val)) w ∧ ¬ w.Good := by
  have hrun : ((exec World.step (World.start (2 ^ (12 : Fin 64).val)) bridged).map fun w =>
      (w.pool.items 0, w.pool.items 1, w.pool.regPool 0x1000, w.pool.regPool 0x3000)) =
      some (some ⟨0x1000, 0x4000, 2⟩, some ⟨0x3000, 0x4000, 1⟩, some 0, some 1) := by decide
  obtain ⟨w, hexec, hw⟩ := map_eq_some_iff.1 hrun
  refine ⟨w, .of_exec (fun _ _ _ => trivial) hexec, fun hgood => ?_⟩
  simp only [Prod.mk.injEq] at hw
  obtain ⟨hfirst, hsecond, hkey, hkey'⟩ := hw
  have hdisjoint := hgood.disjoint 0 1 _ _ ⟨hfirst, hkey⟩ ⟨hsecond, hkey'⟩ (by decide)
  dsimp only at hdisjoint
  omega

end FlagCX.Reg
