import Mathlib.Data.List.Nodup

/-!
# Intrusive queues that share one link

Singly linked queues whose objects carry the link themselves, so that an object is in one queue at a time. `Queues` holds
the link of every object and the two ends of every queue; `Spells` says which lists the queues stand for.

* `Chain`    : every object of a list points to the next one, and the last to a given end.
* `Spells.enqueue`, `Spells.dequeue`, `Spells.remove` : the operations on the lists. `remove` takes the object behind a
  predecessor, as a walk over the queue does.
-/

namespace FlagCX.Lib
open List Function Option

structure IntruQueue (α : Type) where
  head : Option α
  tail : Option α
  deriving DecidableEq, Repr

/-- The links of the objects and the queues that share them. -/
structure Queues (ι α : Type) where
  next : α → Option α
  queue : ι → IntruQueue α

namespace Queues

variable {ι α : Type}

def construct : Queues ι α := ⟨fun _ => none, fun _ => ⟨none, none⟩⟩

def isEmpty (s : Queues ι α) (i : ι) : Bool := (s.queue i).head.isNone

def head (s : Queues ι α) (i : ι) : Option α := (s.queue i).head

variable [DecidableEq ι] [DecidableEq α]

/-- `x` becomes the last object. -/
def enqueue (s : Queues ι α) (i : ι) (x : α) : Queues ι α :=
  let next := Function.update s.next x none
  match (s.queue i).head, (s.queue i).tail with
  | some h, some t => { next := Function.update next t (some x), queue := Function.update s.queue i ⟨some h, some x⟩ }
  | _, _ => { next := next, queue := Function.update s.queue i ⟨some x, some x⟩ }

/-- The first object is taken out. -/
def dequeue (s : Queues ι α) (i : ι) : Option (α × Queues ι α) :=
  match (s.queue i).head with
  | none => none
  | some x =>
    let h := s.next x
    some (x, { s with queue := Function.update s.queue i ⟨h, if h = none then none else (s.queue i).tail⟩ })

/-- The object behind `prev`, or the first one, is taken out. What stood behind it is returned. -/
def remove (s : Queues ι α) (i : ι) : Option α → Option α × Queues ι α
  | some prev =>
    match s.next prev with
    | none => (none, s)
    | some x =>
      (s.next x,
        { next := Function.update s.next prev (s.next x)
          queue := Function.update s.queue i
            ⟨(s.queue i).head, if (s.queue i).tail = some x then some prev else (s.queue i).tail⟩ })
  | none =>
    match (s.queue i).head with
    | none => (none, s)
    | some x =>
      (s.next x,
        { s with
          queue := Function.update s.queue i
            ⟨s.next x, if (s.queue i).tail = some x then none else (s.queue i).tail⟩ })

end Queues

/-! ## Chains -/

/-- Every object of the list points to the next one, and the last to `e`. -/
def Chain {α : Type} (next : α → Option α) : List α → Option α → Prop
  | [], _ => True
  | x :: l, e => next x = l.head?.or e ∧ Chain next l e

section Chain
variable {α : Type} {next next' : α → Option α} {l m : List α} {e : Option α}

theorem chain_append : Chain next (l ++ m) e ↔ Chain next l (m.head?.or e) ∧ Chain next m e := by
  induction l with
  | nil => simp [Chain]
  | cons x l ih =>
    show next x = (l ++ m).head?.or e ∧ Chain next (l ++ m) e ↔ (next x = _ ∧ Chain next l _) ∧ _
    rw [ih, head?_append, Option.or_assoc, and_assoc]

theorem Chain.congr (h : Chain next l e) (hsame : ∀ x ∈ l, next' x = next x) : Chain next' l e := by
  induction l with
  | nil => trivial
  | cons x l ih =>
    refine ⟨?_, ih h.2 fun y hy => hsame y (mem_cons_of_mem x hy)⟩
    rw [hsame x mem_cons_self]
    exact h.1

theorem chain_singleton {x : α} : Chain next [x] e ↔ next x = e := by simp [Chain]

end Chain

/-! ## The lists that queues stand for -/

/-- The queue stands for the list. -/
structure Spells {α : Type} (next : α → Option α) (q : IntruQueue α) (l : List α) : Prop where
  head : q.head = l.head?
  tail : q.tail = l.getLast?
  chain : Chain next l none
  nodup : l.Nodup

/-- The queues stand for lists without a common object. -/
structure SpellsAll {ι α : Type} (s : Queues ι α) (ls : ι → List α) : Prop where
  spells : ∀ i, Spells s.next (s.queue i) (ls i)
  apart : ∀ i j x, x ∈ ls i → x ∈ ls j → i = j

section Spells
variable {ι α : Type} {s : Queues ι α} {ls : ι → List α} {i : ι} {x : α} {l : List α}

theorem spells_construct : SpellsAll (Queues.construct : Queues ι α) fun _ => [] :=
  ⟨fun _ => ⟨rfl, rfl, trivial, .nil⟩, fun _ _ _ h => absurd h not_mem_nil⟩

theorem SpellsAll.isEmpty (h : SpellsAll s ls) (i : ι) : s.isEmpty i = true ↔ ls i = [] := by
  rw [Queues.isEmpty, (h.spells i).head, isNone_iff_eq_none, head?_eq_none_iff]

variable [DecidableEq ι]

theorem SpellsAll.update (h : SpellsAll s ls) {next' : α → Option α} {q : IntruQueue α}
    (hq : Spells next' q l) (hframe : ∀ j, j ≠ i → ∀ y ∈ ls j, next' y = s.next y)
    (hapart : ∀ j, j ≠ i → ∀ y ∈ l, y ∉ ls j) :
    SpellsAll ⟨next', Function.update s.queue i q⟩ (Function.update ls i l) := by
  refine ⟨fun j => ?_, fun j k y hj hk => ?_⟩
  · show Spells next' (Function.update s.queue i q j) _
    rcases eq_or_ne j i with rfl | hne
    · rw [update_self, update_self]
      exact hq
    · rw [update_of_ne hne, update_of_ne hne]
      have hold := h.spells j
      exact ⟨hold.head, hold.tail, hold.chain.congr (hframe j hne), hold.nodup⟩
  · rw [update_apply] at hj hk
    split_ifs at hj hk with h1 h2 h2
    · rw [h1, h2]
    · exact absurd hk (hapart k h2 y hj)
    · exact absurd hj (hapart j h1 y hk)
    · exact h.apart j k y hj hk

theorem SpellsAll.dequeue (h : SpellsAll s ls) (hl : ls i = x :: l) :
    ∃ s', s.dequeue i = some (x, s') ∧ SpellsAll s' (Function.update ls i l) := by
  have hold := h.spells i
  rw [hl] at hold
  have hnext : s.next x = l.head? := by simpa using hold.chain.1
  have hhead : (s.queue i).head = some x := hold.head
  refine ⟨_, by unfold Queues.dequeue; rw [hhead], ?_⟩
  refine h.update ⟨hnext, ?_, hold.chain.2, (nodup_cons.1 hold.nodup).2⟩ (fun _ _ _ _ => rfl) fun j hj y hy hin => ?_
  · rw [hnext, hold.tail]
    cases l with
    | nil => rfl
    | cons y l => rfl
  · exact hj (h.apart j i y hin (by rw [hl]; exact mem_cons_of_mem x hy))

variable [DecidableEq α]

theorem SpellsAll.enqueue (h : SpellsAll s ls) (hx : ∀ j, x ∉ ls j) :
    SpellsAll (s.enqueue i x) (Function.update ls i (ls i ++ [x])) := by
  have hold := h.spells i
  have hapart : ∀ j, j ≠ i → ∀ y ∈ ls i ++ [x], y ∉ ls j := by
    intro j hj y hy hin
    rcases mem_append.1 hy with hy | hy
    · exact hj (h.apart j i y hin hy)
    · rw [mem_singleton.1 hy] at hin
      exact hx j hin
  have hnodup : (ls i ++ [x]).Nodup := by
    refine nodup_append.2 ⟨hold.nodup, nodup_singleton x, fun a ha b hb hab => ?_⟩
    rw [mem_singleton.1 hb] at hab
    rw [hab] at ha
    exact hx i ha
  unfold Queues.enqueue
  rcases eq_nil_or_concat (ls i) with hnil | ⟨l₀, t, hl⟩
  · rw [hold.head, hnil]
    refine h.update ⟨rfl, rfl, ?_, hnil ▸ hnodup⟩ ?_ (hnil ▸ hapart)
    · exact chain_singleton.2 (update_self ..)
    · intro j _ y hy
      refine update_of_ne ?_ _ _
      rintro rfl
      exact hx j hy
  · rw [concat_eq_append] at hl
    have ht : t ∈ ls i := by rw [hl]; simp
    have hhead : ∃ y, (s.queue i).head = some y := by
      rw [hold.head, hl]
      cases l₀ with
      | nil => exact ⟨t, rfl⟩
      | cons y _ => exact ⟨y, rfl⟩
    obtain ⟨y, hy⟩ := hhead
    have htail : (s.queue i).tail = some t := by rw [hold.tail, hl, getLast?_concat]
    have hxt : x ≠ t := by
      rintro rfl
      exact hx i ht
    have hchain := hold.chain
    rw [hl, chain_append] at hchain
    rw [hl] at hnodup
    obtain ⟨hnod, -, hdisj⟩ := nodup_append.1 (nodup_append.1 hnodup).1
    rw [hy, htail]
    refine h.update ⟨?_, ?_, ?_, hl ▸ hnodup⟩ ?_ hapart
    · have hsome := hold.head
      rw [hy] at hsome
      rw [head?_append, ← hsome]
      rfl
    · rw [getLast?_concat]
    · rw [hl, chain_append, chain_append, chain_singleton, chain_singleton]
      refine ⟨⟨?_, ?_⟩, ?_⟩
      · refine Chain.congr hchain.1 fun z hz => ?_
        have hzt : z ≠ t := fun he => hdisj z hz t (mem_singleton_self t) he
        have hzx : z ≠ x := by
          rintro rfl
          exact hx i (by rw [hl]; exact mem_append_left _ hz)
        rw [update_of_ne hzt, update_of_ne hzx]
      · exact update_self ..
      · rw [update_of_ne hxt, update_self]
    · intro j hj z hz
      have hzt : z ≠ t := by
        rintro rfl
        exact hj (h.apart j i z hz ht)
      have hzx : z ≠ x := by
        rintro rfl
        exact hx j hz
      rw [update_of_ne hzt, update_of_ne hzx]

theorem SpellsAll.remove (h : SpellsAll s ls) {l₁ l₂ : List α} (hl : ls i = l₁ ++ x :: l₂) :
    (s.remove i l₁.getLast?).1 = l₂.head? ∧ SpellsAll (s.remove i l₁.getLast?).2 (Function.update ls i (l₁ ++ l₂)) := by
  have hold := h.spells i
  rw [hl] at hold
  obtain ⟨hc₁, hc₂⟩ := chain_append.1 hold.chain
  have hnext : s.next x = l₂.head? := by simpa using hc₂.1
  have hnodup : (l₁ ++ l₂).Nodup := hold.nodup.sublist ((sublist_cons_self x l₂).append_left l₁)
  have hapart : ∀ j, j ≠ i → ∀ y ∈ l₁ ++ l₂, y ∉ ls j := by
    intro j hj y hy hin
    refine hj (h.apart j i y hin ?_)
    rw [hl]
    exact ((sublist_cons_self x l₂).append_left l₁).subset hy
  have htail : (s.queue i).tail = some x ↔ l₂ = [] := by
    rw [hold.tail, getLast?_append]
    cases l₂ with
    | nil => simp
    | cons y l₂ =>
      rw [getLast?_cons_cons]
      have hne : (y :: l₂).getLast? = some ((y :: l₂).getLast (by simp)) := getLast?_eq_some_getLast (by simp)
      refine iff_of_false (fun he => ?_) (by simp)
      have hx : x ∈ y :: l₂ := by
        rw [← some.inj he]
        exact getLast_mem _
      exact (nodup_cons.1 (nodup_append.1 hold.nodup).2.1).1 hx
  rcases eq_nil_or_concat l₁ with rfl | ⟨l₀, p, hl₁⟩
  · have hhead : (s.queue i).head = some x := hold.head
    unfold Queues.remove
    rw [hhead]
    refine ⟨hnext, h.update ⟨hnext, ?_, hc₂.2, hnodup⟩ (fun _ _ _ _ => rfl) hapart⟩
    by_cases hempty : l₂ = []
    · rw [if_pos (htail.2 hempty), hempty]
      rfl
    · rw [if_neg fun he => hempty (htail.1 he), hold.tail]
      cases l₂ with
      | nil => exact absurd rfl hempty
      | cons y l₂ => rfl
  · rw [concat_eq_append] at hl₁
    have hp : p ∈ ls i := by rw [hl, hl₁]; simp
    have hc := hc₁
    rw [hl₁, chain_append, chain_singleton] at hc
    have hpx : s.next p = some x := by simpa using hc.2
    have hlast : l₁.getLast? = some p := by rw [hl₁, getLast?_concat]
    obtain ⟨hn₁, -, hd₁⟩ := nodup_append.1 hnodup
    rw [hl₁] at hn₁ hd₁
    obtain ⟨-, -, hd₀⟩ := nodup_append.1 hn₁
    rw [hlast]
    unfold Queues.remove
    dsimp only
    rw [hpx]
    refine ⟨hnext, h.update ⟨?_, ?_, ?_, hnodup⟩ ?_ hapart⟩
    · rw [hold.head, hl₁]
      cases l₀ <;> rfl
    · by_cases hempty : l₂ = []
      · rw [if_pos (htail.2 hempty), hempty, append_nil, hlast]
      · rw [if_neg fun he => hempty (htail.1 he), hold.tail]
        cases l₂ with
        | nil => exact absurd rfl hempty
        | cons y l₂ => rw [getLast?_append, getLast?_append, getLast?_cons_cons]
    · rw [chain_append, hl₁, chain_append, chain_singleton]
      refine ⟨⟨?_, ?_⟩, ?_⟩
      · refine Chain.congr (show Chain s.next _ _ from ?_) fun z hz => ?_
        · simpa using hc.1
        · exact update_of_ne (fun he => hd₀ z hz p (mem_singleton_self p) he) _ _
      · rw [update_self, hnext, or_none]
      · refine hc₂.2.congr fun z hz => ?_
        exact update_of_ne (fun he => hd₁ p (by simp) z hz he.symm) _ _
    · intro j hj z hz
      refine update_of_ne ?_ _ _
      rintro rfl
      exact hj (h.apart j i z hz hp)

end Spells

end FlagCX.Lib
