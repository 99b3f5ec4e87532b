import FlagCX.Bootstrap.Channels
import FlagCX.Lib.ProcPath

/-!
# The barrier of the bootstrap (`bootstrapCollIntraNodeBarrier`)

A rank goes through rounds with the masks 1, 2, 4, ... below the number of ranks. In each it sends to the rank that is `mask`
places after it and receives from the one that is `mask` places before it.

* `Ledger` : what the history of a rank says about its barriers.
* `Ledgers.heard` : after the rounds below `2 ^ j` a rank has heard of the `2 ^ j` ranks before it, itself included.
* `barrier` : no rank leaves its k-th barrier before all have entered theirs, and messages of two barriers are not mixed up.

The datum that is sent is not initialised; a message is labelled with the barrier in which it is sent. A `mask` is an `int`,
which it does not overflow with up to 2 ^ 30 ranks.
-/

namespace FlagCX.Bootstrap
open Lib List

/-! ## The program -/

/-- What a rank records: that it has entered its `k`-th barrier, that it has got a message of barrier `m` in it, and that it has
left it. -/
inductive Mark where
  | entered (k : Nat)
  | took (k m : Nat)
  | left (k : Nat)
  deriving DecidableEq

def masksFrom (nranks : Nat) : Nat → Nat → List Nat
  | 0, _ => []
  | fuel + 1, mask => if mask < nranks then mask :: masksFrom nranks fuel (mask <<< 1) else []

def masks (nranks : Nat) : List Nat := masksFrom nranks nranks 1

/-- The ranks of a barrier: `ranks` gives their numbers in the communicator, and without it they are all ranks of it. -/
structure Team where
  nranks : Nat
  ranks : Option (Nat → Nat)
  distinct : ∀ i j, i < nranks → j < nranks → ranks.getD id i = ranks.getD id j → i = j

namespace Team
variable (team : Team)

/-- `ranks ? ranks[i] : i`. -/
def peer (i : Nat) : Nat := team.ranks.getD id i

/-- `src`: the rank that is `mask` places before another one. -/
def src (rank mask : Nat) : Nat := (rank + team.nranks - mask) % team.nranks

/-- `dst`: the rank that is `mask` places after another one. -/
def dst (rank mask : Nat) : Nat := (rank + mask) % team.nranks

def round (rank : Nat) (tag : Int) (k mask : Nat) : Coll Nat Mark PUnit :=
  .send (team.peer (team.dst rank mask)) (.tag tag) k <|
  .recv (team.peer (team.src rank mask)) (.tag tag) fun m =>
  .note (.took k m) <| .done ⟨⟩

/-- `bootstrapCollIntraNodeBarrier`, the `k`-th time that it is called. -/
def bootstrapCollIntraNodeBarrier (rank : Nat) (tag : Int) (k : Nat) : Coll Nat Mark PUnit :=
  if team.nranks = 1 then .done ⟨⟩ else (masks team.nranks).forM (team.round rank tag k)

/-- One barrier, with what is recorded about it. -/
def enter (rank : Nat) (tag : Int) (k : Nat) : Coll Nat Mark PUnit :=
  .note (.entered k) (team.bootstrapCollIntraNodeBarrier rank tag k >>= fun _ => .note (.left k) (.done ⟨⟩))

def barriers (rank : Nat) (tag : Int) (count : Nat) : Coll Nat Mark PUnit := (List.range count).forM (team.enter rank tag)

/-- The ranks of the team call the barrier `count` times. What other ranks do is arbitrary. -/
def procs (tag : Int) (count : Nat) (others : Nat → Coll Nat Mark PUnit) (g : Nat) : Coll Nat Mark PUnit :=
  match (List.range team.nranks).find? (fun i => team.peer i = g) with
  | some i => team.barriers i tag count
  | none => others g

end Team

/-! ## The masks and the ranks -/

variable {nranks a : Nat}

theorem masksFrom_eq {fuel : Nat} (h : nranks ≤ 2 ^ (a + fuel)) : ∃ n, nranks ≤ 2 ^ (a + n) ∧
    masksFrom nranks fuel (2 ^ a) = (List.range n).map (fun j => 2 ^ (a + j)) ∧ ∀ j < n, 2 ^ (a + j) < nranks := by
  induction fuel generalizing a with
  | zero => exact ⟨0, h, rfl, fun j hj => by cases hj⟩
  | succ fuel ih =>
    rw [masksFrom]
    by_cases hlt : 2 ^ a < nranks
    · obtain ⟨n, hn, heq, hall⟩ := ih (a := a + 1) (by rwa [Nat.add_right_comm, Nat.add_assoc])
      have hshift : ∀ j, a + (j + 1) = a + 1 + j := fun j => by omega
      refine ⟨n + 1, by rwa [hshift], ?_, fun j hj => ?_⟩
      · rw [if_pos hlt, Nat.shiftLeft_eq, ← Nat.pow_add, heq, range_succ_eq_map, map_cons, map_map]
        exact congrArg _ (map_congr_left fun j _ => by
          rw [Function.comp_apply, Nat.succ_eq_add_one, hshift j])
      · cases j with
        | zero => exact hlt
        | succ j =>
          rw [hshift]
          exact hall j (by omega)
    · exact ⟨0, by simpa using hlt, by rw [if_neg hlt]; rfl, fun j hj => by cases hj⟩

theorem masks_eq (nranks : Nat) : ∃ n, nranks ≤ 2 ^ n ∧ masks nranks = (List.range n).map (2 ^ ·) ∧
    ∀ j < n, 2 ^ j < nranks := by
  have hfuel : nranks ≤ 2 ^ (0 + nranks) := by
    rw [Nat.zero_add]
    exact Nat.lt_two_pow_self.le
  obtain ⟨n, hn, heq, hall⟩ := masksFrom_eq hfuel
  simp only [Nat.zero_add] at hn heq hall
  exact ⟨n, hn, heq, hall⟩

theorem masks_nodup (nranks : Nat) : (masks nranks).Nodup := by
  obtain ⟨n, -, heq, -⟩ := masks_eq nranks
  rw [heq]
  exact nodup_range.map fun a b h => Nat.pow_right_injective (Nat.le_refl 2) h

variable {past rest : List Nat}

theorem masks_past (h : masks nranks = past ++ rest) (j : Nat) : 2 ^ j ∈ past ↔ j < past.length := by
  obtain ⟨n, -, heq, -⟩ := masks_eq nranks
  have hle : past.length ≤ n := by
    have hlength := congrArg List.length (h.symm.trans heq)
    rw [length_append, length_map, length_range] at hlength
    omega
  have hpast : past = (List.range past.length).map (2 ^ ·) := by
    have htake := congrArg (List.take past.length) (h.symm.trans heq)
    rwa [take_left, ← map_take, take_range, min_eq_left hle] at htake
  constructor
  · intro hj
    rw [hpast] at hj
    obtain ⟨j', hj', hpow⟩ := mem_map.1 hj
    rw [← Nat.pow_right_injective (Nat.le_refl 2) hpow]
    exact mem_range.1 hj'
  · intro hj
    rw [hpast]
    exact mem_map_of_mem (mem_range.2 hj)

theorem masks_next {mask : Nat} (h : masks nranks = past ++ mask :: rest) : mask = 2 ^ past.length := by
  have hall : masks nranks = (past ++ [mask]) ++ rest := by rw [h, append_assoc, singleton_append]
  have hmem := (masks_past hall past.length).2 (by rw [length_append, length_singleton]; exact Nat.lt_succ_self _)
  rcases mem_append.1 hmem with hmem | hmem
  · exact absurd ((masks_past h _).1 hmem) (lt_irrefl _)
  · exact (mem_singleton.1 hmem).symm

theorem mask_lt {mask : Nat} (h : mask ∈ masks nranks) : mask < nranks := by
  obtain ⟨n, -, heq, hall⟩ := masks_eq nranks
  rw [heq] at h
  obtain ⟨j, hj, rfl⟩ := mem_map.1 h
  exact hall j (mem_range.1 hj)

section Ranks
variable {team : Team} {i d mask : Nat}

section

variable (hi : i < team.nranks)
include hi

theorem Team.src_eq (hd : d < team.nranks) : team.src i d = if d ≤ i then i - d else i + team.nranks - d := by
  rw [Team.src]
  split_ifs with h
  · rw [show i + team.nranks - d = i - d + team.nranks by omega, Nat.add_mod_right, Nat.mod_eq_of_lt (by omega)]
  · exact Nat.mod_eq_of_lt (by omega)

theorem Team.dst_eq (hd : d < team.nranks) : team.dst i d = if i + d < team.nranks then i + d else i + d - team.nranks := by
  rw [Team.dst]
  split_ifs with h
  · exact Nat.mod_eq_of_lt h
  · rw [show i + d = i + d - team.nranks + team.nranks by omega, Nat.add_mod_right, Nat.mod_eq_of_lt (by omega)]
    omega

theorem Team.src_lt : team.src i d < team.nranks := Nat.mod_lt _ (by omega)

theorem Team.dst_lt : team.dst i d < team.nranks := Nat.mod_lt _ (by omega)

theorem Team.dst_src (hd : d < team.nranks) : team.dst (team.src i d) d = i := by
  rw [Team.dst_eq (Team.src_lt hi) hd, Team.src_eq hi hd]
  split_ifs <;> omega

theorem Team.src_src (hsum : d + mask < team.nranks) : team.src (team.src i mask) d = team.src i (mask + d) := by
  rw [Team.src_eq (Team.src_lt hi) (by omega), Team.src_eq hi (by omega : mask < _), Team.src_eq hi (by omega : mask + d < _)]
  split_ifs <;> omega

theorem Team.exists_src {j : Nat} (hj : j < team.nranks) : ∃ d < team.nranks, team.src i d = j := by
  refine ⟨team.src i j, Team.src_lt hi, ?_⟩
  rw [Team.src_eq hi (Team.src_lt hi), Team.src_eq hi hj]
  split_ifs <;> omega

theorem Team.dst_inj (hd : d < team.nranks) (hmask : mask < team.nranks)
    (h : team.peer (team.dst i d) = team.peer (team.dst i mask)) : d = mask := by
  have heq : team.dst i d = team.dst i mask := team.distinct _ _ (Team.dst_lt hi) (Team.dst_lt hi) h
  rw [Team.dst_eq hi hd, Team.dst_eq hi hmask] at heq
  split_ifs at heq <;> omega

theorem Team.src_inj (hd : d < team.nranks) (hmask : mask < team.nranks)
    (h : team.peer (team.src i d) = team.peer (team.src i mask)) : d = mask := by
  have heq : team.src i d = team.src i mask := team.distinct _ _ (Team.src_lt hi) (Team.src_lt hi) h
  rw [Team.src_eq hi hd, Team.src_eq hi hmask] at heq
  split_ifs at heq <;> omega

theorem Team.procs_peer {tag : Int} {count : Nat} {others : Nat → Coll Nat Mark PUnit} :
    team.procs tag count others (team.peer i) = team.barriers i tag count := by
  rw [Team.procs]
  cases h : (List.range team.nranks).find? (fun j => team.peer j = team.peer i) with
  | none => exact absurd rfl (of_decide_eq_false (Bool.not_eq_true _ ▸ find?_eq_none.1 h i (mem_range.2 hi)))
  | some j =>
    have hj := mem_range.1 (mem_of_find?_eq_some h)
    have heq := find?_some h
    rw [team.distinct j i hj hi (of_decide_eq_true heq)]

end

end Ranks

/-! ## The history of a rank -/

section Histories
variable {team : Team} {i : Nat} {tag : Int} {k : Nat} {h : List (Event Nat Port Nat Mark)} {q : Coll Nat Mark PUnit}

def Team.out (team : Team) (i : Nat) (tag : Int) (mask : Nat) (h : List (Event Nat Port Nat Mark)) : List Nat :=
  sentTo (team.peer (team.dst i mask)) (.tag tag) h

def Team.got (team : Team) (i : Nat) (tag : Int) (mask : Nat) (h : List (Event Nat Port Nat Mark)) : List Nat :=
  gotFrom (team.peer (team.src i mask)) (.tag tag) h

@[simp] theorem Team.out_append (mask : Nat) (h h' : List (Event Nat Port Nat Mark)) :
    team.out i tag mask (h ++ h') = team.out i tag mask h ++ team.out i tag mask h' := sentTo_append _ _ _ _

@[simp] theorem Team.got_append (mask : Nat) (h h' : List (Event Nat Port Nat Mark)) :
    team.got i tag mask (h ++ h') = team.got i tag mask h ++ team.got i tag mask h' := gotFrom_append _ _ _ _

section Cons
variable {mask mask' : Nat} {h : List (Event Nat Port Nat Mark)}

section

variable (hi : i < team.nranks) (hmask : mask < team.nranks) (hmask' : mask' < team.nranks)
include hi hmask hmask'

theorem Team.out_sent : team.out i tag mask (.sent (team.peer (team.dst i mask')) (.tag tag) k :: h) =
      if mask = mask' then k :: team.out i tag mask h else team.out i tag mask h := by
  by_cases heq : mask = mask'
  · subst heq
    simp [Team.out, sentTo]
  · have hne : team.peer (team.dst i mask') ≠ team.peer (team.dst i mask) := fun h =>
      heq (Team.dst_inj hi hmask' hmask h).symm
    simp [Team.out, sentTo, heq, hne]

theorem Team.got_got {m : Nat} : team.got i tag mask (.got (team.peer (team.src i mask')) (.tag tag) m :: h) =
      if mask = mask' then m :: team.got i tag mask h else team.got i tag mask h := by
  by_cases heq : mask = mask'
  · subst heq
    simp [Team.got, gotFrom]
  · have hne : team.peer (team.src i mask') ≠ team.peer (team.src i mask) := fun h =>
      heq (Team.src_inj hi hmask' hmask h).symm
    simp [Team.got, gotFrom, heq, hne]

end

@[simp] theorem Team.out_nil : team.out i tag mask [] = [] := rfl

@[simp] theorem Team.got_nil : team.got i tag mask [] = [] := rfl

@[simp] theorem Team.out_got {p : Nat} {m : Nat} : team.out i tag mask (.got p (.tag tag) m :: h) = team.out i tag mask h := rfl

@[simp] theorem Team.out_noted {v : Mark} : team.out i tag mask (.noted v :: h) = team.out i tag mask h := rfl

@[simp] theorem Team.got_sent {p : Nat} {m : Nat} : team.got i tag mask (.sent p (.tag tag) m :: h) = team.got i tag mask h := rfl

@[simp] theorem Team.got_noted {v : Mark} : team.got i tag mask (.noted v :: h) = team.got i tag mask h := rfl

end Cons

theorem round_path {mask : Nat} (hp : Path (team.round i tag k mask) h q) :
    h = [] ∨ h = [.sent (team.peer (team.dst i mask)) (.tag tag) k] ∨
    (∃ m, h = [.sent (team.peer (team.dst i mask)) (.tag tag) k, .got (team.peer (team.src i mask)) (.tag tag) m]) ∨
    ∃ m, h = [.sent (team.peer (team.dst i mask)) (.tag tag) k, .got (team.peer (team.src i mask)) (.tag tag) m,
      .noted (.took k m)] := by
  cases hp with
  | refl => exact .inl rfl
  | send hp =>
    cases hp with
    | refl => exact .inr (.inl rfl)
    | recv hp =>
      cases hp with
      | refl => exact .inr (.inr (.inl ⟨_, rfl⟩))
      | note hp =>
        obtain ⟨rfl, -⟩ := hp.done_inv
        exact .inr (.inr (.inr ⟨_, rfl⟩))

theorem round_done {mask : Nat} (hp : Path (team.round i tag k mask) h (.done ⟨⟩)) :
    ∃ m, h = [.sent (team.peer (team.dst i mask)) (.tag tag) k, .got (team.peer (team.src i mask)) (.tag tag) m,
      .noted (.took k m)] := by
  cases hp with
  | send hp =>
    cases hp with
    | recv hp =>
      cases hp with
      | note hp =>
        obtain ⟨rfl, -⟩ := hp.done_inv
        exact ⟨_, rfl⟩

/-- What the rounds with the masks `past` have done. -/
structure Rounds (team : Team) (i : Nat) (tag : Int) (k : Nat) (past : List Nat) (h : List (Event Nat Port Nat Mark)) :
    Prop where
  out : ∀ mask < team.nranks, team.out i tag mask h = if mask ∈ past then [k] else []
  got : ∀ mask < team.nranks, mask ∈ past → ∃ m, team.got i tag mask h = [m]
  not_yet : ∀ mask < team.nranks, mask ∉ past → team.got i tag mask h = []
  took : ∀ v ∈ notesOf h, ∃ mask ∈ past, ∃ m, v = .took k m ∧ team.got i tag mask h = [m]

variable {hs : List (List (Event Nat Port Nat Mark))}

theorem rounds (hi : i < team.nranks)
    (hpast : List.Forall₂ (fun mask h => Path (team.round i tag k mask) h (.done ⟨⟩)) past hs)
    (hlt : ∀ mask ∈ past, mask < team.nranks) (hnodup : past.Nodup) : Rounds team i tag k past hs.flatten := by
  induction hpast with
  | nil => exact ⟨fun _ _ => rfl, fun _ _ h => (not_mem_nil h).elim, fun _ _ _ => rfl, fun _ h => (not_mem_nil h).elim⟩
  | @cons x h past hs hx hpast ih =>
    obtain ⟨hnot, hnodup⟩ := nodup_cons.1 hnodup
    have ih := ih (fun mask hmask => hlt mask (mem_cons_of_mem _ hmask)) hnodup
    have hxlt : x < team.nranks := hlt x mem_cons_self
    obtain ⟨m, rfl⟩ := round_done hx
    rw [flatten_cons]
    constructor
    · intro mask hmask
      rw [Team.out_append, Team.out_sent hi hmask hxlt, ih.out mask hmask]
      by_cases heq : mask = x
      · simp [heq, hnot]
      · simp [heq]
    · intro mask hmask hmem
      rw [Team.got_append, Team.got_sent, Team.got_got hi hmask hxlt]
      by_cases heq : mask = x
      · rw [if_pos heq, ih.not_yet mask hmask (by rwa [heq])]
        exact ⟨m, rfl⟩
      · rw [if_neg heq]
        exact ih.got mask hmask ((mem_cons.1 hmem).resolve_left heq)
    · intro mask hmask hmem
      rw [Team.got_append, Team.got_sent, Team.got_got hi hmask hxlt, if_neg fun heq => hmem (by rw [heq]; exact .head _)]
      exact ih.not_yet mask hmask fun h => hmem (mem_cons_of_mem _ h)
    · intro v hv
      rw [notesOf_append] at hv
      rcases mem_append.1 hv with hv | hv
      · refine ⟨x, mem_cons_self, m, by simpa [notesOf] using hv, ?_⟩
        rw [Team.got_append, ih.not_yet x hxlt hnot, Team.got_sent, Team.got_got hi hxlt hxlt, if_pos rfl]
        rfl
      · obtain ⟨mask, hmask, m', rfl, hgot⟩ := ih.took v hv
        have hne : mask ≠ x := fun heq => hnot (heq ▸ hmask)
        refine ⟨mask, mem_cons_of_mem _ hmask, m', rfl, ?_⟩
        rw [Team.got_append, hgot, Team.got_sent, Team.got_got hi (hlt mask (mem_cons_of_mem _ hmask)) hxlt, if_neg hne]
        rfl

/-- What the history of one barrier says, whether it is over or not: one message at most each way in a round, sent after one
was received in each round before it. -/
structure Block (team : Team) (i : Nat) (tag : Int) (n k : Nat) (h : List (Event Nat Port Nat Mark)) : Prop where
  out : ∀ j < n, team.out i tag (2 ^ j) h = [] ∨ team.out i tag (2 ^ j) h = [k]
  got : ∀ j < n, (team.got i tag (2 ^ j) h).length ≤ 1
  first : ∀ j < n, team.out i tag (2 ^ j) h ≠ [] → .entered k ∈ notesOf h
  waits : ∀ j < n, team.out i tag (2 ^ j) h ≠ [] → ∀ j' < j, team.got i tag (2 ^ j') h ≠ []
  left : ∀ k', .left k' ∈ notesOf h → k' = k ∧ .entered k ∈ notesOf h ∧ ∀ j < n, team.got i tag (2 ^ j) h ≠ []
  took : ∀ k' m, .took k' m ∈ notesOf h → k' = k ∧ ∃ j < n, team.got i tag (2 ^ j) h = [m]

theorem Block.nil {n : Nat} : Block team i tag n k [] :=
  ⟨fun _ _ => .inl rfl, fun _ _ => Nat.zero_le 1, fun _ _ h => absurd rfl h, fun _ _ h => absurd rfl h,
    fun _ h => (not_mem_nil h).elim, fun _ _ h => (not_mem_nil h).elim⟩

/-- The history of a barrier that was left. -/
structure Passed (team : Team) (i : Nat) (tag : Int) (n k : Nat) (h : List (Event Nat Port Nat Mark)) : Prop
    extends Block team i tag n k h where
  sent : ∀ j < n, team.out i tag (2 ^ j) h = [k]
  received : ∀ j < n, team.got i tag (2 ^ j) h ≠ []
  entered : .entered k ∈ notesOf h

variable {n : Nat}

/-- What follows on the first `a` rounds: a part of the next round, or the record of the end. -/
structure Ahead (team : Team) (i : Nat) (tag : Int) (n k a : Nat) (h : List (Event Nat Port Nat Mark)) : Prop where
  out : ∀ j < n, team.out i tag (2 ^ j) h = [] ∨ j = a ∧ team.out i tag (2 ^ j) h = [k]
  got : ∀ j < n, team.got i tag (2 ^ j) h = [] ∨ j = a ∧ (team.got i tag (2 ^ j) h).length = 1
  left : ∀ k', .left k' ∈ notesOf h → k' = k ∧ n ≤ a
  took : ∀ k' m, .took k' m ∈ notesOf h → k' = k ∧ a < n ∧ team.got i tag (2 ^ a) h = [m]

theorem Ahead.nil : Ahead team i tag n k a [] :=
  ⟨fun _ _ => .inl rfl, fun _ _ => .inl rfl, fun _ h => (not_mem_nil h).elim, fun _ _ h => (not_mem_nil h).elim⟩

theorem Ahead.last (ha : n ≤ a) : Ahead team i tag n k a [.noted (.left k)] where
  out _ _ := .inl rfl
  got _ _ := .inl rfl
  left _ h := ⟨Mark.left.inj (mem_singleton.1 h), ha⟩
  took _ _ h := Mark.noConfusion (mem_singleton.1 h)

theorem Ahead.round (hi : i < team.nranks) (hlt : ∀ j < n, 2 ^ j < team.nranks) (ha : a < n)
    (hp : Path (team.round i tag k (2 ^ a)) h q) : Ahead team i tag n k a h := by
  have hpow : ∀ j, 2 ^ j = 2 ^ a ↔ j = a := fun j => ⟨fun h => Nat.pow_right_injective (Nat.le_refl 2) h, congrArg _⟩
  have hout : ∀ j < n, ∀ t, team.out i tag (2 ^ j) (.sent (team.peer (team.dst i (2 ^ a))) (.tag tag) k :: t) =
      if j = a then k :: team.out i tag (2 ^ j) t else team.out i tag (2 ^ j) t := fun j hj t => by
    rw [Team.out_sent hi (hlt j hj) (hlt a ha), if_congr (hpow j) rfl rfl]
  have hgot : ∀ j < n, ∀ m t, team.got i tag (2 ^ j) (.got (team.peer (team.src i (2 ^ a))) (.tag tag) m :: t) =
      if j = a then m :: team.got i tag (2 ^ j) t else team.got i tag (2 ^ j) t := fun j hj m t => by
    rw [Team.got_got hi (hlt j hj) (hlt a ha), if_congr (hpow j) rfl rfl]
  constructor
  · intro j hj
    rcases round_path hp with rfl | rfl | ⟨m, rfl⟩ | ⟨m, rfl⟩
    · exact .inl rfl
    all_goals
      rw [hout j hj]
      split_ifs with heq
      · exact .inr ⟨heq, rfl⟩
      · exact .inl rfl
  · intro j hj
    rcases round_path hp with rfl | rfl | ⟨m, rfl⟩ | ⟨m, rfl⟩
    · exact .inl rfl
    · exact .inl rfl
    all_goals
      rw [Team.got_sent, hgot j hj]
      split_ifs with heq
      · exact .inr ⟨heq, rfl⟩
      · exact .inl rfl
  · intro k' hk'
    rcases round_path hp with rfl | rfl | ⟨m, rfl⟩ | ⟨m, rfl⟩ <;> simp [notesOf] at hk'
  · intro k' m hk'
    rcases round_path hp with rfl | rfl | ⟨m, rfl⟩ | ⟨m, rfl⟩ <;> simp [notesOf] at hk'
    obtain ⟨rfl, rfl⟩ := hk'
    refine ⟨rfl, ha, ?_⟩
    rw [Team.got_sent, hgot a ha, if_pos rfl]
    rfl

variable {hpast tail : List (Event Nat Port Nat Mark)}

theorem Block.of_rounds (hn : masks team.nranks = (List.range n).map (2 ^ ·)) (hmasks : masks team.nranks = past ++ rest)
    (hrounds : Rounds team i tag k past hpast) (htail : Ahead team i tag n k past.length tail) :
    Block team i tag n k (.noted (.entered k) :: (hpast ++ tail)) := by
  obtain ⟨hout, hgot, hleft, htook⟩ := htail
  have hmem := masks_past hmasks
  have hlt : ∀ j < n, 2 ^ j < team.nranks := fun j hj => mask_lt (hn ▸ mem_map_of_mem (mem_range.2 hj))
  have houtj : ∀ j < n, team.out i tag (2 ^ j) (.noted (.entered k) :: (hpast ++ tail)) =
      if j < past.length then [k] else team.out i tag (2 ^ j) tail := fun j hj => by
    rw [Team.out_noted, Team.out_append, hrounds.out _ (hlt j hj), if_congr (hmem j) rfl rfl]
    split_ifs with hlate
    · rcases hout j hj with hnil | ⟨heq, -⟩
      · rw [hnil]
        rfl
      · omega
    · rfl
  have hgotj : ∀ j < n, (j < past.length → team.got i tag (2 ^ j) (hpast ++ tail) = team.got i tag (2 ^ j) hpast ∧
        ∃ m, team.got i tag (2 ^ j) hpast = [m]) ∧ (past.length ≤ j →
        team.got i tag (2 ^ j) (hpast ++ tail) = team.got i tag (2 ^ j) tail) := fun j hj => by
    rw [Team.got_append]
    refine ⟨fun hearly => ?_, fun hlate => ?_⟩
    · obtain ⟨m, hm⟩ := hrounds.got _ (hlt j hj) ((hmem j).2 hearly)
      rcases hgot j hj with hnil | ⟨heq, -⟩
      · exact ⟨by rw [hnil, append_nil], m, hm⟩
      · omega
    · rw [hrounds.not_yet _ (hlt j hj) fun h => not_lt.2 hlate ((hmem j).1 h)]
      rfl
  have hentered : Mark.entered k ∈ notesOf (.noted (.entered k) :: (hpast ++ tail)) := mem_cons_self
  have hnotes : ∀ v, v ∈ notesOf (.noted (.entered k) :: (hpast ++ tail)) →
      v = .entered k ∨ v ∈ notesOf hpast ∨ v ∈ notesOf tail := fun v hv => by
    rcases mem_cons.1 hv with hv | hv
    · exact .inl hv
    · exact .inr (mem_append.1 (notesOf_append hpast tail ▸ hv))
  constructor
  · intro j hj
    rw [houtj j hj]
    split_ifs
    · exact .inr rfl
    · exact (hout j hj).imp_right And.right
  · intro j hj
    rw [Team.got_noted]
    rcases lt_or_ge j past.length with hearly | hlate
    · obtain ⟨heq, m, hm⟩ := (hgotj j hj).1 hearly
      rw [heq, hm]
      exact Nat.le_refl 1
    · rw [(hgotj j hj).2 hlate]
      rcases hgot j hj with hnil | ⟨-, hone⟩
      · rw [hnil]
        exact Nat.zero_le 1
      · exact hone.le
  · exact fun j hj hne => hentered
  · intro j hj hne j' hj'
    rw [houtj j hj] at hne
    have hle : j ≤ past.length := by
      by_contra hlate
      rw [if_neg (by omega)] at hne
      rcases hout j hj with hnil | ⟨heq, -⟩
      · exact hne hnil
      · omega
    obtain ⟨heq, m, hm⟩ := (hgotj j' (by omega)).1 (by omega)
    rw [Team.got_noted, heq, hm]
    exact cons_ne_nil _ _
  · intro k' hk'
    rcases hnotes _ hk' with hk' | hk' | hk'
    · cases hk'
    · obtain ⟨mask, -, m, heq, -⟩ := hrounds.took _ hk'
      cases heq
    · obtain ⟨rfl, hall⟩ := hleft k' hk'
      refine ⟨rfl, hentered, fun j hj => ?_⟩
      obtain ⟨heq, m, hm⟩ := (hgotj j hj).1 (by omega)
      rw [Team.got_noted, heq, hm]
      exact cons_ne_nil _ _
  · intro k' m hk'
    rcases hnotes _ hk' with hk' | hk' | hk'
    · cases hk'
    · obtain ⟨mask, hmask, m', heq, hm⟩ := hrounds.took _ hk'
      cases heq
      obtain ⟨j, hj, rfl⟩ := mem_map.1 (show mask ∈ (List.range n).map (2 ^ ·) by
        rw [← hn, hmasks]
        exact mem_append_left _ hmask)
      refine ⟨rfl, j, mem_range.1 hj, ?_⟩
      rw [Team.got_noted, ((hgotj j (mem_range.1 hj)).1 ((hmem j).1 hmask)).1, hm]
    · obtain ⟨rfl, hlast, hm⟩ := htook k' m hk'
      refine ⟨rfl, past.length, hlast, ?_⟩
      rw [Team.got_noted, (hgotj _ hlast).2 (le_rfl), hm]

theorem barrier_eq : team.bootstrapCollIntraNodeBarrier i tag k = (masks team.nranks).forM (team.round i tag k) := by
  rw [Team.bootstrapCollIntraNodeBarrier]
  split_ifs with hone
  · rw [hone]
    rfl
  · rfl

theorem rounds_path (hi : i < team.nranks) (hmasks : masks team.nranks = past ++ rest)
    (hpast : List.Forall₂ (fun mask h => Path (team.round i tag k mask) h (.done ⟨⟩)) past hs) :
    Rounds team i tag k past hs.flatten := by
  have hnodup := masks_nodup team.nranks
  rw [hmasks] at hnodup
  exact rounds hi hpast (fun mask h => mask_lt (hmasks ▸ mem_append_left _ h)) hnodup.of_append_left

section

variable (hi : i < team.nranks) (hn : masks team.nranks = (List.range n).map (2 ^ ·))
include hi hn

theorem enter_block (hp : Path (team.enter i tag k) h q) : Block team i tag n k h := by
  have hlt : ∀ j < n, 2 ^ j < team.nranks := fun j hj => mask_lt (hn ▸ mem_map_of_mem (mem_range.2 hj))
  have hlength : (masks team.nranks).length = n := by rw [hn, length_map, length_range]
  cases hp with
  | refl => exact .nil
  | note hp =>
    rw [barrier_eq] at hp
    rcases hp.bind with ⟨x, hx, -⟩ | ⟨_, h₁, h₂, rfl, hx, hleave⟩
    · obtain ⟨past, hs, rest, tail, hmasks, rfl, hpast, hnext⟩ := hx.forM
      have hrounds := rounds_path hi hmasks hpast
      rcases hnext with ⟨rfl, rfl, -⟩ | ⟨mask, rest, q', rfl, hround, -⟩
      · exact .of_rounds hn hmasks hrounds .nil
      · obtain rfl := masks_next hmasks
        have hlast : past.length < n := by
          rw [← hlength, hmasks, length_append, length_cons]
          omega
        exact .of_rounds hn hmasks hrounds (.round hi hlt hlast hround)
    · obtain ⟨hs, rfl, hpast⟩ := hx.forM_done
      refine .of_rounds hn (append_nil _).symm (rounds_path hi (append_nil _).symm hpast) ?_
      cases hleave with
      | refl => exact .nil
      | note hdone =>
        obtain ⟨rfl, -⟩ := hdone.done_inv
        exact .last hlength.ge

theorem enter_passed (hp : Path (team.enter i tag k) h (.done ⟨⟩)) : Passed team i tag n k h := by
  have hlt : ∀ j < n, 2 ^ j < team.nranks := fun j hj => mask_lt (hn ▸ mem_map_of_mem (mem_range.2 hj))
  have hmem : ∀ j < n, 2 ^ j ∈ masks team.nranks := fun j hj => hn ▸ mem_map_of_mem (mem_range.2 hj)
  have hblock := enter_block hi hn hp
  cases hp with
  | note hp =>
    rw [barrier_eq] at hp
    obtain ⟨_, h₁, h₂, rfl, hx, hleave⟩ := hp.bind_done
    obtain ⟨hs, rfl, hpast⟩ := hx.forM_done
    have hrounds := rounds_path hi (append_nil _).symm hpast
    cases hleave with
    | note hdone =>
      obtain ⟨rfl, -⟩ := hdone.done_inv
      refine ⟨hblock, fun j hj => ?_, fun j hj => ?_, .head _⟩
      · rw [Team.out_noted, Team.out_append, hrounds.out _ (hlt j hj), if_pos (hmem j hj)]
        rfl
      · obtain ⟨m, hm⟩ := hrounds.got _ (hlt j hj) (hmem j hj)
        rw [Team.got_noted, Team.got_append, hm]
        exact cons_ne_nil _ _

end

/-! ## All barriers of a rank -/

/-- What the history of a rank says about its barriers: the messages of a round are sent barrier after barrier, after those of
the rounds before were received, and a barrier is left when the messages of all rounds were. -/
structure Ledger (team : Team) (i : Nat) (tag : Int) (n : Nat) (h : List (Event Nat Port Nat Mark)) : Prop where
  out : ∀ j < n, team.out i tag (2 ^ j) h = List.range (team.out i tag (2 ^ j) h).length
  first : ∀ j < n, ∀ k < (team.out i tag (2 ^ j) h).length, .entered k ∈ notesOf h
  waits : ∀ j < n, ∀ k < (team.out i tag (2 ^ j) h).length, ∀ j' < j, k < (team.got i tag (2 ^ j') h).length
  left : ∀ k, .left k ∈ notesOf h → .entered k ∈ notesOf h ∧ ∀ j < n, k < (team.got i tag (2 ^ j) h).length
  took : ∀ k m, .took k m ∈ notesOf h → ∃ j < n, (team.got i tag (2 ^ j) h)[k]? = some m

structure Behind (team : Team) (i : Nat) (tag : Int) (n : Nat) (past : List Nat) (h : List (Event Nat Port Nat Mark)) :
    Prop where
  out : ∀ j < n, team.out i tag (2 ^ j) h = past
  got : ∀ j < n, (team.got i tag (2 ^ j) h).length = past.length
  entered : ∀ k ∈ past, .entered k ∈ notesOf h
  left : ∀ k, .left k ∈ notesOf h → k ∈ past
  took : ∀ k m, .took k m ∈ notesOf h → ∃ j < n, ∃ a : Nat, past[a]? = some k ∧ (team.got i tag (2 ^ j) h)[a]? = some m

theorem behind (hall : List.Forall₂ (Passed team i tag n) past hs) : Behind team i tag n past hs.flatten := by
  induction hall with
  | nil =>
    exact ⟨fun _ _ => rfl, fun _ _ => rfl, fun _ h => (not_mem_nil h).elim, fun _ h => (not_mem_nil h).elim,
      fun _ _ h => (not_mem_nil h).elim⟩
  | @cons k h past hs hk hall ih =>
    rw [flatten_cons]
    have hone : ∀ j < n, (team.got i tag (2 ^ j) h).length = 1 := fun j hj =>
      le_antisymm (hk.got j hj) (length_pos_of_ne_nil (hk.received j hj))
    constructor
    · intro j hj
      rw [Team.out_append, hk.sent j hj, ih.out j hj]
      rfl
    · intro j hj
      rw [Team.got_append, length_append, hone j hj, ih.got j hj, length_cons, Nat.add_comm]
    · intro k' hk'
      rw [notesOf_append]
      rcases mem_cons.1 hk' with rfl | hk'
      · exact mem_append_left _ hk.entered
      · exact mem_append_right _ (ih.entered k' hk')
    · intro k' hk'
      rw [notesOf_append] at hk'
      rcases mem_append.1 hk' with hk' | hk'
      · rw [(hk.left k' hk').1]
        exact mem_cons_self
      · exact mem_cons_of_mem _ (ih.left k' hk')
    · intro k' m hk'
      rw [notesOf_append] at hk'
      rcases mem_append.1 hk' with hk' | hk'
      · obtain ⟨rfl, j, hj, hm⟩ := hk.took k' m hk'
        exact ⟨j, hj, 0, rfl, by rw [Team.got_append, hm]; rfl⟩
      · obtain ⟨j, hj, a, ha, hm⟩ := ih.took k' m hk'
        refine ⟨j, hj, a + 1, ha, ?_⟩
        rw [Team.got_append, getElem?_append_right (by rw [hone j hj]; omega), hone j hj]
        exact hm

theorem Ledger.of_behind (hrange : past = List.range past.length)
    (hbehind : Behind team i tag n past hpast) (hblock : Block team i tag n past.length tail) :
    Ledger team i tag n (hpast ++ tail) := by
  -- a message past those of the barriers that were left is of the present one
  have hout : ∀ j < n, ∀ k < (team.out i tag (2 ^ j) (hpast ++ tail)).length,
      k < past.length ∨ k = past.length ∧ team.out i tag (2 ^ j) tail ≠ [] := fun j hj k hk => by
    rw [Team.out_append, length_append, hbehind.out j hj] at hk
    rcases hblock.out j hj with hnil | hone
    · rw [hnil] at hk
      exact .inl hk
    · rw [hone, length_singleton] at hk
      exact (Nat.lt_succ_iff_lt_or_eq.1 hk).imp_right fun heq => ⟨heq, by rw [hone]; exact cons_ne_nil _ _⟩
  have hgot : ∀ j < n, (team.got i tag (2 ^ j) (hpast ++ tail)).length = past.length + (team.got i tag (2 ^ j) tail).length :=
    fun j hj => by rw [Team.got_append, length_append, hbehind.got j hj]
  have hlater : ∀ j < n, team.got i tag (2 ^ j) tail ≠ [] →
      past.length < (team.got i tag (2 ^ j) (hpast ++ tail)).length := fun j hj hne => by
    rw [hgot j hj]
    exact Nat.lt_add_of_pos_right (length_pos_of_ne_nil hne)
  have hbefore : ∀ k < past.length, k ∈ past := fun k hk => by
    rw [hrange]
    exact mem_range.2 hk
  constructor
  · intro j hj
    rw [Team.out_append, hbehind.out j hj]
    rcases hblock.out j hj with hnil | hone
    · rw [hnil, append_nil]
      exact hrange
    · rw [hone, length_append, length_singleton, range_succ, ← hrange]
  · intro j hj k hk
    rw [notesOf_append]
    rcases hout j hj k hk with hk | ⟨rfl, hne⟩
    · exact mem_append_left _ (hbehind.entered k (hbefore k hk))
    · exact mem_append_right _ (hblock.first j hj hne)
  · intro j hj k hk j' hj'
    rcases hout j hj k hk with hk | ⟨rfl, hne⟩
    · rw [hgot j' (hj'.trans hj)]
      exact Nat.lt_add_right _ hk
    · exact hlater j' (hj'.trans hj) (hblock.waits j hj hne j' hj')
  · intro k hk
    rw [notesOf_append] at hk ⊢
    rcases mem_append.1 hk with hk | hk
    · have hmem := hbehind.left k hk
      refine ⟨mem_append_left _ (hbehind.entered k hmem), fun j hj => ?_⟩
      rw [hrange] at hmem
      rw [hgot j hj]
      exact Nat.lt_add_right _ (mem_range.1 hmem)
    · obtain ⟨rfl, hentered, hall⟩ := hblock.left k hk
      exact ⟨mem_append_right _ hentered, fun j hj => hlater j hj (hall j hj)⟩
  · intro k m hk
    rw [notesOf_append] at hk
    rcases mem_append.1 hk with hk | hk
    · obtain ⟨j, hj, a, ha, hm⟩ := hbehind.took k m hk
      rw [hrange, getElem?_range (by simpa using (List.getElem?_eq_some_iff.1 ha).1)] at ha
      cases ha
      exact ⟨j, hj, by rw [Team.got_append, getElem?_append_left (List.getElem?_eq_some_iff.1 hm).1, hm]⟩
    · obtain ⟨rfl, j, hj, hm⟩ := hblock.took k m hk
      refine ⟨j, hj, ?_⟩
      rw [Team.got_append, getElem?_append_right (hbehind.got j hj).le, hbehind.got j hj, Nat.sub_self, hm]
      rfl

/-- **The ledger of a rank**, at any point of its barriers. -/
theorem ledger {count : Nat} (hi : i < team.nranks) (hn : masks team.nranks = (List.range n).map (2 ^ ·))
    (hp : Path (team.barriers i tag count) h q) : Ledger team i tag n h := by
  obtain ⟨past, hs, rest, tail, hsplit, rfl, hpast, hnext⟩ := hp.forM
  have hbehind := behind (hpast.imp fun k h hk => enter_passed hi hn hk)
  have hle : past.length + rest.length = count := by
    have hlength := congrArg List.length hsplit
    rwa [length_range, length_append, eq_comm] at hlength
  have hrange : past = List.range past.length := by
    have htake := congrArg (List.take past.length) hsplit
    rwa [take_left, take_range, min_eq_left (by omega), eq_comm] at htake
  refine .of_behind hrange hbehind ?_
  rcases hnext with ⟨-, rfl, -⟩ | ⟨k, rest, q', rfl, hk, -⟩
  · exact .nil
  · have hnow : past.length = k := by
      have hget : (List.range count)[past.length]? = some k := by
        rw [hsplit, getElem?_append_right (Nat.le_refl _), Nat.sub_self]
        rfl
      rw [length_cons] at hle
      rw [getElem?_range (by omega)] at hget
      exact Option.some.inj hget
    rw [hnow]
    exact enter_block hi hn hk

end Histories

/-! ## All ranks -/

section Ranks
variable {team : Team} {tag : Int} {n : Nat} {h : Nat → List (Event Nat Port Nat Mark)}

/-- What the histories of the ranks say together. What a rank has received was sent to it. -/
structure Ledgers (team : Team) (tag : Int) (n : Nat) (h : Nat → List (Event Nat Port Nat Mark)) : Prop where
  ledger : ∀ i < team.nranks, Ledger team i tag n (h (team.peer i))
  pairs : ∀ i < team.nranks, ∀ j < n, team.got i tag (2 ^ j) (h (team.peer i)) <+:
    team.out (team.src i (2 ^ j)) tag (2 ^ j) (h (team.peer (team.src i (2 ^ j))))

theorem Ledgers.heard (hh : Ledgers team tag n h) {k j i : Nat} (hj : j ≤ n)
    (hi : i < team.nranks) (hentered : .entered k ∈ notesOf (h (team.peer i)))
    (hgot : ∀ j' < j, k < (team.got i tag (2 ^ j') (h (team.peer i))).length) {d : Nat} (hd : d < 2 ^ j)
    (hdn : d < team.nranks) : .entered k ∈ notesOf (h (team.peer (team.src i d))) := by
  induction j generalizing i d with
  | zero =>
    obtain rfl : d = 0 := Nat.lt_one_iff.1 hd
    rw [Team.src_eq hi hdn, if_pos (Nat.zero_le i), Nat.sub_zero]
    exact hentered
  | succ j ih =>
    rcases lt_or_ge d (2 ^ j) with hnear | hfar
    · exact ih (by omega) hi hentered (fun j' hj' => hgot j' (by omega)) hnear hdn
    · -- the rank `2 ^ j` places before has heard of it
      have hs : team.src i (2 ^ j) < team.nranks := Team.src_lt hi
      have hsent := (hgot j (Nat.lt_succ_self j)).trans_le (hh.pairs i hi j hj).length_le
      have hsum : d - 2 ^ j + 2 ^ j < team.nranks := by omega
      have hback : team.src (team.src i (2 ^ j)) (d - 2 ^ j) = team.src i (2 ^ j + (d - 2 ^ j)) := Team.src_src hi hsum
      rw [show 2 ^ j + (d - 2 ^ j) = d by omega] at hback
      rw [← hback]
      refine ih (by omega) hs ((hh.ledger _ hs).first j hj k hsent) (fun j' hj' => ?_) ?_ (by omega)
      · exact (hh.ledger _ hs).waits j hj k hsent j' hj'
      · omega

end Ranks

/-! ## The barrier -/

/-- What is due to the ranks of a team.

* `waits` : who has left a barrier has left it after all have entered it;
* `own` : the messages received in a barrier are of this barrier. -/
structure Team.Separate (team : Team) (w : World Nat Mark PUnit) : Prop where
  waits : ∀ i < team.nranks, ∀ k, .left k ∈ w.notes (team.peer i) → ∀ j < team.nranks, .entered k ∈ w.notes (team.peer j)
  own : ∀ i < team.nranks, ∀ k m, .took k m ∈ w.notes (team.peer i) → m = k

/-- **The barrier is a barrier**, for any number of ranks and of barriers in a row with one tag, and at any speed of the ranks. -/
theorem barrier (team : Team) (tag : Int) (count : Nat) (others : Nat → Coll Nat Mark PUnit) {as : List (Nat × Nat)}
    {w : World Nat Mark PUnit} (hexec : exec World.step (World.start (team.procs tag count others)) as = some w) :
    team.Separate w := by
  obtain ⟨-, bs, hrun⟩ := run_network hexec
  obtain ⟨h, hh, -⟩ := Network.histories hrun
  obtain ⟨n, hle, hn, hlt⟩ := masks_eq team.nranks
  have hnotes : ∀ g, w.notes g = notesOf (h g) := fun g => hh.notes g
  have hledger : ∀ i < team.nranks, Ledger team i tag n (h (team.peer i)) := fun i hi => by
    have hpath := hh.path (team.peer i)
    rw [show (Network.start (team.procs tag count others)).procs = team.procs tag count others from rfl,
      Team.procs_peer hi] at hpath
    exact ledger hi hn hpath
  have hall : Ledgers team tag n h := ⟨hledger, fun i hi j hj => ?_⟩
  · constructor
    · intro i hi k hk j hj
      rw [hnotes] at hk ⊢
      obtain ⟨hentered, hgot⟩ := (hledger i hi).left k hk
      obtain ⟨d, hd, rfl⟩ := Team.exists_src hi hj
      exact hall.heard (Nat.le_refl n) hi hentered hgot (hd.trans_le hle) hd
    · intro i hi k m hk
      rw [hnotes] at hk
      obtain ⟨j, hj, hm⟩ := (hledger i hi).took k m hk
      obtain ⟨later, hlater⟩ := hall.pairs i hi j hj
      have hsent : (team.out (team.src i (2 ^ j)) tag (2 ^ j) (h (team.peer (team.src i (2 ^ j)))))[k]? = some m := by
        rw [← hlater, getElem?_append_left (List.getElem?_eq_some_iff.1 hm).1, hm]
      have hlength := (List.getElem?_eq_some_iff.1 hsent).1
      rw [(hledger _ (Team.src_lt hi)).out j hj, getElem?_range hlength] at hsent
      exact (Option.some.inj hsent).symm
  · have hchan := hh.chans (team.peer (team.src i (2 ^ j))) (team.peer i) (.tag tag)
    refine ⟨_, Eq.trans hchan.symm ?_⟩
    rw [Team.out, Team.dst_src hi (hlt j hj)]
    rfl

def three : Team := ⟨3, none, fun _ _ _ _ h => h⟩

/-- The ranks go through the first barrier, and rank 0 is in the second one before the others have left the first. -/
def ahead : List (Nat × Nat) :=
  [(0, 4), (1, 4), (2, 4), (0, 8), (1, 8), (2, 8), (0, 10)].flatMap fun (r, steps) => List.replicate steps (r, 0)

theorem barrier_three : ∃ w, exec World.step (World.start (three.procs 7 2 fun _ => .done ⟨⟩)) ahead = some w ∧
    w.notes 0 = [.entered 0, .took 0 0, .took 0 0, .left 0, .entered 1] ∧ three.Separate w := by
  have hrun : (exec World.step (World.start (three.procs 7 2 fun _ => .done ⟨⟩)) ahead).map (fun w => w.notes 0) =
      some [.entered 0, .took 0 0, .took 0 0, .left 0, .entered 1] := by
    decide +kernel
  obtain ⟨w, hw, hnotes⟩ := Option.map_eq_some_iff.1 hrun
  exact ⟨w, hw, hnotes, barrier three 7 2 (fun _ => .done ⟨⟩) hw⟩

end FlagCX.Bootstrap
