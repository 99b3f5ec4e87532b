import FlagCX.Result
import FlagCX.Lib.Quadratic
import Mathlib.Data.List.GetD

/-!
# The p2p schedule (`initTransportsRank`)

Every rank numbers the nodes and the ranks of each node from the host hashes that it gathered, and builds its rounds from
the quadratic offsets of the two levels; ranks of unevenly filled nodes are scheduled as one node.

* `p2pSchedule` : the rounds of a rank; `p2pSchedule_eq` : the loops end and the check of the round count passes.
* `p2pSchedule_matching` : the rounds of all ranks are matchings.
-/

namespace FlagCX.Group
open Lib List

/-! ## Nodes -/

/-- `nodesFirstRank` up to `nNodes`, and `rankToNode`. -/
structure Nodes where
  nodesFirstRank : List Nat
  rankToNode : List Nat

section Build
variable (hostHash : Nat → Nat) (nranks : Nat)

def addRank (s : Nodes) (r : Nat) : Nodes :=
  let node := s.nodesFirstRank.findIdx fun first => hostHash first = hostHash r
  ⟨if node = s.nodesFirstRank.length then s.nodesFirstRank ++ [r] else s.nodesFirstRank, s.rankToNode ++ [node]⟩

def nodes : Nodes := (List.range nranks).foldl (addRank hostHash) ⟨[], []⟩

/-- `comm->nNodes` before the test for uneven nodes. -/
def nNodes : Nat := (nodes hostHash nranks).nodesFirstRank.length

def rankToNode (r : Nat) : Nat := (nodes hostHash nranks).rankToNode.getD r 0

/-- `nodeRanks[node].localRankToRank` once the loop has filled in the ranks below `r`. -/
def filled (r node : Nat) : List Nat :=
  (List.range r).foldl (fun l r' => if rankToNode hostHash nranks r' = node then l ++ [r'] else l) []

def localRankToRank (node : Nat) : List Nat := filled hostHash nranks nranks node

/-- `comm->rankToLocalRank`: the ranks of the node counted before `r`. -/
def rankToLocalRank (r : Nat) : Nat := (filled hostHash nranks r (rankToNode hostHash nranks r)).length

def maxLocalRanks : Nat :=
  (List.range (nNodes hostHash nranks)).foldl (fun m n => max m (localRankToRank hostHash nranks n).length) 0

/-- The nodes do not all have `maxLocalRanks` ranks. -/
def flat : Bool :=
  (List.range (nNodes hostHash nranks)).any fun n =>
    (localRankToRank hostHash nranks n).length != maxLocalRanks hostHash nranks

end Build

/-! ## The loops -/

def log2Up (x : Nat) : Nat := if x - 1 = 0 then 0 else (x - 1).log2 + 1

def pow2Up (x : Nat) : Nat := 2 ^ log2Up x

/-- One of the two loops: the body runs at every delta below `n`. The counters of the source are `uint32_t`;
`delta_no_wrap` shows that they do not wrap. -/
def doWhile {σ : Type} (n pow2 : Nat) (body : Nat → σ → Option σ) : Nat → Nat → Nat → σ → Option σ
  | 0, _, _, _ => none
  | fuel + 1, round, delta, s => do
    let s ← if delta < n then body delta s else some s
    let round := round + 1
    let delta := (delta + round) &&& (pow2 - 1)
    if round = pow2 then some s else doWhile n pow2 body fuel round delta s

/-- `flagcxHeteroComm::P2pSchedulePair`. -/
structure P2pSchedulePair where
  sendRank : Nat
  recvRank : Nat
  deriving DecidableEq, Repr

/-- The rounds that `initTransportsRank` builds on `rank`. -/
def p2pSchedule (hostHash : Nat → Nat) (nranks rank : Nat) : Except Result (List P2pSchedulePair) :=
  let flat := flat hostHash nranks
  let nNodes := if flat then 1 else nNodes hostHash nranks
  let node := if flat then 0 else rankToNode hostHash nranks rank
  let nLocals := if flat then nranks else maxLocalRanks hostHash nranks
  let locals := if flat then rank else rankToLocalRank hostHash nranks rank
  let pair := fun sendNode sendLocal recvNode recvLocal : Nat =>
    if flat then (⟨sendLocal, recvLocal⟩ : P2pSchedulePair)
    else ⟨(localRankToRank hostHash nranks sendNode).getD sendLocal 0,
      (localRankToRank hostHash nranks recvNode).getD recvLocal 0⟩
  let localLoop := fun nodeDelta schedule =>
    let sendNode := (node + nodeDelta) % nNodes
    let recvNode := (node + nNodes - nodeDelta) % nNodes
    doWhile nLocals (pow2Up nLocals) (fun localDelta schedule =>
      let sendLocal := (locals + localDelta) % nLocals
      let recvLocal := (locals + nLocals - localDelta) % nLocals
      some (schedule ++ [pair sendNode sendLocal recvNode recvLocal])) (pow2Up nLocals) 0 0 schedule
  match doWhile nNodes (pow2Up nNodes) localLoop (pow2Up nNodes) 0 0 [] with
  | none => .error .internalError
  | some schedule => if schedule.length = nranks then .ok schedule else .error .internalError

/-! ## The deltas of a loop -/

section Loops
variable {σ : Type} {n k : Nat} {body : Nat → σ → Option σ}

theorem le_pow2Up (n : Nat) : n ≤ pow2Up n := by
  unfold pow2Up log2Up
  split_ifs with h
  · omega
  · have := Nat.lt_log2_self (n := n - 1)
    omega

theorem doWhile_from {fuel round : Nat} (h : round + (fuel + 1) = 2 ^ k) (s : σ) :
    doWhile n (2 ^ k) body (fuel + 1) round (tri round % 2 ^ k) s =
      (((range' round (fuel + 1)).map fun i => tri i % 2 ^ k).filter fun d => d < n).foldlM (fun s d => body d s) s := by
  induction fuel generalizing round s with
  | zero =>
    rw [doWhile, range'_one, map_singleton, filter_singleton]
    by_cases hd : tri round % 2 ^ k < n <;> simp [hd, h]
  | succ fuel ih =>
    have hne : round + 1 ≠ 2 ^ k := by omega
    have hnext : tri round % 2 ^ k + (round + 1) &&& (2 ^ k - 1) = tri (round + 1) % 2 ^ k := by
      rw [Nat.and_two_pow_sub_one_eq_mod, Nat.mod_add_mod, tri]
    rw [doWhile, range'_succ, map_cons, filter_cons]
    by_cases hd : tri round % 2 ^ k < n
    · simp only [hd, if_true, decide_true, hne, if_false, hnext, foldlM_cons]
      congr 1
      funext s'
      exact ih (by omega) s'
    · simp only [hd, if_false, decide_false, hne, hnext, Bool.false_eq_true]
      exact ih (by omega) s

/-- **The loop ends**, and its body has run at the offsets below `n`. -/
theorem doWhile_eq (s : σ) : doWhile n (2 ^ k) body (2 ^ k) 0 0 s = (offsets k n).foldlM (fun s d => body d s) s := by
  obtain ⟨m, hm⟩ := Nat.exists_eq_add_of_lt (Nat.two_pow_pos k)
  have h : doWhile n (2 ^ k) body (m + 1) 0 (tri 0 % 2 ^ k) s = _ := doWhile_from (by omega) s
  have hzero : tri 0 % 2 ^ k = 0 := Nat.zero_mod _
  rw [hzero, show m + 1 = 2 ^ k by omega, ← range_eq_range'] at h
  exact h

theorem foldlM_append {α β : Type} (f : α → List β) (l : List α) (s : List β) :
    l.foldlM (fun s d => some (s ++ f d)) s = some (s ++ l.flatMap f) := by
  induction l generalizing s with
  | nil => rw [foldlM_nil, flatMap_nil, append_nil]; rfl
  | cons d l ih =>
    rw [foldlM_cons, flatMap_cons, ← append_assoc]
    exact ih _

end Loops

/-! ## The numbering of the ranks -/

section Numbers
variable {hostHash : Nat → Nat} {nranks r : Nat}

theorem nodes_spec (hostHash : Nat → Nat) (n : Nat) :
    (nodes hostHash n).rankToNode.length = n ∧
      ∀ node ∈ (nodes hostHash n).rankToNode, node < (nodes hostHash n).nodesFirstRank.length := by
  induction n with
  | zero => exact ⟨rfl, fun node h => absurd h not_mem_nil⟩
  | succ n ih =>
    have hstep : nodes hostHash (n + 1) = addRank hostHash (nodes hostHash n) n := by
      rw [nodes, range_succ, foldl_append]
      rfl
    rw [hstep]
    generalize nodes hostHash n = s at ih
    obtain ⟨hlen, hlt⟩ := ih
    refine ⟨by simp [addRank, hlen], fun node hnode => ?_⟩
    have hle : s.nodesFirstRank.findIdx (fun first => hostHash first = hostHash n) ≤ s.nodesFirstRank.length :=
      findIdx_le_length
    simp only [addRank] at hnode ⊢
    rcases mem_append.1 hnode with h | h
    · have := hlt node h
      split_ifs
      · rw [length_append]
        exact Nat.lt_add_right _ this
      · exact this
    · obtain rfl := mem_singleton.1 h
      split_ifs with hnew
      · rw [length_append, hnew]
        exact Nat.lt_succ_self _
      · exact lt_of_le_of_ne hle hnew

theorem rankToNode_lt (hr : r < nranks) : rankToNode hostHash nranks r < nNodes hostHash nranks := by
  obtain ⟨hlen, hlt⟩ := nodes_spec hostHash nranks
  refine hlt _ ?_
  rw [rankToNode, getD_eq_getElem _ _ (by omega)]
  exact getElem_mem _

theorem filled_eq (r node : Nat) :
    filled hostHash nranks r node = (List.range r).filter fun r' => rankToNode hostHash nranks r' = node := by
  unfold filled
  induction r with
  | zero => rfl
  | succ r ih =>
    rw [range_succ, foldl_append, ih, filter_append, foldl_cons, foldl_nil,
      filter_singleton]
    by_cases h : rankToNode hostHash nranks r = node <;> simp [h]

theorem mem_localRankToRank {node : Nat} :
    r ∈ localRankToRank hostHash nranks node ↔ r < nranks ∧ rankToNode hostHash nranks r = node := by
  rw [localRankToRank, filled_eq, mem_filter, mem_range, decide_eq_true_iff]

theorem localRankToRank_nodup (node : Nat) : (localRankToRank hostHash nranks node).Nodup := by
  rw [localRankToRank, filled_eq]
  exact nodup_range.filter _

theorem filter_range_getElem? (q : Nat → Bool) {n : Nat} (hr : r < n) (hq : q r = true) :
    ((List.range n).filter q)[((List.range r).filter q).length]? = some r := by
  obtain ⟨d, rfl⟩ := Nat.exists_eq_add_of_lt hr
  have hsplit : List.range (r + d + 1) = List.range r ++ (r :: (List.range d).map (r + 1 + ·)) := by
    rw [show r + d + 1 = r + (1 + d) by omega, range_add, range_add, map_append, map_map]
    simp [Function.comp_def, add_assoc]
  rw [hsplit, filter_append, filter_cons_of_pos hq, getElem?_append_right (Nat.le_refl _),
    Nat.sub_self, getElem?_cons_zero]

theorem localRankToRank_getElem? (hr : r < nranks) :
    (localRankToRank hostHash nranks (rankToNode hostHash nranks r))[rankToLocalRank hostHash nranks r]? = some r := by
  rw [localRankToRank, rankToLocalRank, filled_eq, filled_eq]
  exact filter_range_getElem? _ hr (decide_eq_true rfl)

theorem length_of_not_flat (h : flat hostHash nranks = false) {node : Nat} (hn : node < nNodes hostHash nranks) :
    (localRankToRank hostHash nranks node).length = maxLocalRanks hostHash nranks := by
  unfold flat at h
  rw [any_eq_false] at h
  simpa using h node (mem_range.2 hn)

def nodeNumbering (hostHash : Nat → Nat) (nranks : Nat) (h : flat hostHash nranks = false) :
    Numbering nranks (nNodes hostHash nranks) (maxLocalRanks hostHash nranks) where
  party node l := (localRankToRank hostHash nranks node).getD l 0
  group := rankToNode hostHash nranks
  place := rankToLocalRank hostHash nranks
  group_lt _ := rankToNode_lt
  place_lt r hr := by
    rw [← length_of_not_flat h (rankToNode_lt hr)]
    exact (List.getElem?_eq_some_iff.1 (localRankToRank_getElem? hr)).1
  party_lt node hn l hl := by
    rw [← length_of_not_flat h hn] at hl
    rw [getD_eq_getElem _ _ hl]
    exact (mem_localRankToRank.1 (getElem_mem hl)).1
  party_group_place r hr := by rw [getD_eq_getElem?_getD, localRankToRank_getElem? hr, Option.getD_some]
  group_party node hn l hl := by
    rw [← length_of_not_flat h hn] at hl
    rw [getD_eq_getElem _ _ hl]
    exact (mem_localRankToRank.1 (getElem_mem hl)).2
  place_party node hn l hl := by
    rw [← length_of_not_flat h hn] at hl
    rw [getD_eq_getElem _ _ hl]
    obtain ⟨hlt, hnode⟩ := mem_localRankToRank.1 (getElem_mem hl)
    have hplace : (localRankToRank hostHash nranks _)[_]? = _ := localRankToRank_getElem? hlt
    rw [hnode] at hplace
    obtain ⟨hlt', heq⟩ := List.getElem?_eq_some_iff.1 hplace
    exact (List.Nodup.getElem_inj_iff (localRankToRank_nodup node)).1 heq

def flatNumbering (nranks : Nat) : Numbering nranks 1 nranks where
  party _ l := l
  group _ := 0
  place r := r
  group_lt _ _ := one_pos
  place_lt _ hr := hr
  party_lt _ _ _ hl := hl
  party_group_place _ _ := rfl
  group_party _ hg _ _ := (Nat.lt_one_iff.1 hg).symm
  place_party _ _ _ _ := rfl

end Numbers

/-! ## The schedule -/

def pairOf {total groups places : Nat} (s : Numbering total groups places) (rank : Nat) (d : Nat × Nat) :
    P2pSchedulePair := ⟨s.sendTo rank d, s.recvFrom rank d⟩

/-- The rounds in the order of the loops: local offsets within node offsets. -/
def rounds {total groups places : Nat} (s : Numbering total groups places) (rank : Nat) : List P2pSchedulePair :=
  (offsets (log2Up groups) groups ×ˢ offsets (log2Up places) places).map (pairOf s rank)

/-- What the schedules of all ranks are for. -/
structure Matching (n : Nat) (schedule : Nat → List P2pSchedulePair) : Prop where
  length : ∀ a < n, (schedule a).length = n
  self : ∀ a < n, (schedule a)[0]? = some ⟨a, a⟩
  sends : ∀ a < n, ((schedule a).map P2pSchedulePair.sendRank).Perm (List.range n)
  recvs : ∀ a < n, ((schedule a).map P2pSchedulePair.recvRank).Perm (List.range n)
  paired : ∀ a < n, ∀ b < n, ∀ r : Nat, (schedule a)[r]?.map P2pSchedulePair.sendRank = some b ↔
    (schedule b)[r]?.map P2pSchedulePair.recvRank = some a

section Rounds
variable {total groups places : Nat} {s : Numbering total groups places}

theorem matching_rounds (s : Numbering total groups places) : Matching total (rounds s) := by
  have hgs := offsets_perm (le_pow2Up groups)
  have hls := offsets_perm (le_pow2Up places)
  have hsends : ∀ a < total, ((rounds s a).map P2pSchedulePair.sendRank).Perm (List.range total) := by
    intro a ha
    rw [rounds, map_map]
    exact Numbering.sends_perm hgs hls ha
  refine ⟨fun a ha => ?_, fun a ha => ?_, hsends, fun a ha => ?_, fun a ha b hb r => ?_⟩
  · have := (hsends a ha).length_eq
    rwa [length_map, length_range] at this
  · -- both offsets of the first round are zero
    have hg : 0 < groups := Nat.zero_lt_of_lt (s.group_lt a ha)
    have hl : 0 < places := Nat.zero_lt_of_lt (s.place_lt a ha)
    obtain ⟨gs, hgs⟩ := head?_eq_some_iff.1 (offsets_head (log2Up groups) hg)
    obtain ⟨ls, hls⟩ := head?_eq_some_iff.1 (offsets_head (log2Up places) hl)
    have hself : s.sendTo a (0, 0) = a := by
      unfold Numbering.sendTo
      rw [add_zero, add_zero, Nat.mod_eq_of_lt (s.group_lt a ha), Nat.mod_eq_of_lt (s.place_lt a ha),
        s.party_group_place a ha]
    have hself' := (Numbering.sendTo_eq_iff ha ha hg hl).1 hself
    rw [rounds, hgs, hls, product_cons, map_cons, cons_append, map_cons, getElem?_cons_zero,
      pairOf, hself, hself']
  · rw [rounds, map_map]
    exact Numbering.recvs_perm hgs hls ha
  · simp only [rounds, getElem?_map, Option.map_map]
    cases hd : (offsets (log2Up groups) groups ×ˢ offsets (log2Up places) places)[r]? with
    | none => simp
    | some d =>
      obtain ⟨h1, h2⟩ := (Numbering.mem_product_perm hgs hls).1 (mem_of_getElem? hd)
      simp only [Option.map_some, Option.some.injEq, Function.comp_apply, pairOf]
      exact Numbering.sendTo_eq_iff ha hb h1 h2

theorem doWhile_rounds (s : Numbering total groups places) (rank : Nat) :
    doWhile groups (pow2Up groups) (fun nodeDelta schedule =>
      doWhile places (pow2Up places) (fun localDelta schedule =>
        some (schedule ++ [pairOf s rank (nodeDelta, localDelta)])) (pow2Up places) 0 0 schedule)
      (pow2Up groups) 0 0 [] = some (rounds s rank) := by
  have hinner : ∀ nodeDelta schedule, doWhile places (pow2Up places) (fun localDelta schedule =>
      some (schedule ++ [pairOf s rank (nodeDelta, localDelta)])) (pow2Up places) 0 0 schedule =
      some (schedule ++ (offsets (log2Up places) places).map fun l => pairOf s rank (nodeDelta, l)) := by
    intro nodeDelta schedule
    rw [pow2Up, doWhile_eq, map_eq_flatMap]
    exact foldlM_append (fun l => [pairOf s rank (nodeDelta, l)]) _ _
  simp only [hinner]
  rw [pow2Up, doWhile_eq, foldlM_append, nil_append, rounds]
  congr 1
  show _ = List.map (pairOf s rank) (List.product _ _)
  rw [List.product, map_flatMap]
  simp only [map_map, Function.comp_def]

end Rounds

section Main
variable {hostHash : Nat → Nat} {nranks rank : Nat}

theorem p2pSchedule_flat (h : flat hostHash nranks = true) (hr : rank < nranks) :
    p2pSchedule hostHash nranks rank = .ok (rounds (flatNumbering nranks) rank) := by
  have hrounds := doWhile_rounds (flatNumbering nranks) rank
  have hlen := (matching_rounds (flatNumbering nranks)).length rank hr
  unfold p2pSchedule
  simp only [h, if_true]
  unfold pairOf Numbering.sendTo Numbering.recvFrom flatNumbering at hrounds
  rw [hrounds]
  exact if_pos hlen

theorem p2pSchedule_nodes (h : flat hostHash nranks = false) (hr : rank < nranks) :
    p2pSchedule hostHash nranks rank = .ok (rounds (nodeNumbering hostHash nranks h) rank) := by
  have hrounds := doWhile_rounds (nodeNumbering hostHash nranks h) rank
  have hlen := (matching_rounds (nodeNumbering hostHash nranks h)).length rank hr
  unfold p2pSchedule
  simp only [h, Bool.false_eq_true, if_false]
  unfold pairOf Numbering.sendTo Numbering.recvFrom nodeNumbering at hrounds
  rw [hrounds]
  exact if_pos hlen

end Main

/-- **The schedule is a global matching**, for every number of ranks and every assignment of them to hosts. -/
theorem p2pSchedule_matching (hostHash : Nat → Nat) (nranks : Nat) :
    ∃ schedule, (∀ a < nranks, p2pSchedule hostHash nranks a = .ok (schedule a)) ∧ Matching nranks schedule := by
  cases h : flat hostHash nranks with
  | true => exact ⟨_, fun _ ha => p2pSchedule_flat h ha, matching_rounds (flatNumbering nranks)⟩
  | false => exact ⟨_, fun _ ha => p2pSchedule_nodes h ha, matching_rounds (nodeNumbering hostHash nranks h)⟩

/-- Two ranks on one host and one on another: one flat node of three ranks, the third of four deltas is filtered. -/
example : p2pSchedule (fun r => if r < 2 then 0 else 1) 3 2 = .ok [⟨2, 2⟩, ⟨0, 1⟩, ⟨1, 0⟩] := by rfl

end FlagCX.Group
