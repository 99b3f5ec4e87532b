import FlagCX.Bootstrap.Connections

/-!
# The channels behind the connections

* `World.network` : the channels that a state stands for, one for each sender, receiver and tag.
* `Inv.step` : a step keeps the invariant, and is a step of the channels or none.
* `Inv.run` : a run of the connections is a run of the channels.

A message is in its channel from the connection to the end of the call that receives it.
-/

namespace FlagCX.Bootstrap
open Lib Function Option List

/-! ## The channels -/

/-- What a rank does next. A message counts as sent when its connection is made. -/
def World.ahead {μ ν α : Type} (w : World μ ν α) (r : Nat) : Coll μ ν α :=
  match w.phase r, w.procs r with
  | .sending _, .send _ _ _ next => next
  | _, proc => proc

/-- The channels of a state: those of the ring, and for each tag the messages that were not received. -/
def World.network {μ ν α : Type} (w : World μ ν α) : Network Nat Port μ ν Result α where
  procs := w.ahead
  chans c :=
    match c.2.2 with
    | .ring => w.rings (c.1, c.2.1)
    | .tag t => (w.pending c.2.1).filterMap (w.carries c.1 c.2.1 t)
  notes := w.notes

/-- After a step of `r` the invariant holds, and the channels have taken a step of `r` or none. -/
structure Follows {μ ν α : Type} (w w' : World μ ν α) (r : Nat) : Prop where
  inv : Inv w'
  network : w'.network = w.network ∨ w.network.step r = some w'.network

section Steps
variable {μ ν α : Type} {w w' : World μ ν α} {r : Nat}

theorem filterMap_filter {β γ : Type} (f : β → Option γ) (l : List β) :
    (l.filter fun b => (f b).isSome).filterMap f = l.filterMap f := by
  rw [List.filterMap_filter]
  refine List.filterMap_congr fun b _ => ?_
  cases f b with
  | none => rfl
  | some c => simp

theorem filter_forward {β : Type} {f : β → Bool} {b : β} {l : List β} (h : f b = true → ∀ x ∈ l, f x = false) (l' : List β) :
    (b :: (l ++ l')).filter f = (l ++ b :: l').filter f := by
  cases hb : f b with
  | false => simp [filter_cons_of_neg, hb]
  | true =>
    have hl : l.filter f = [] := filter_eq_nil_iff.2 fun x hx => by simp [h hb x hx]
    simp [filter_cons_of_pos, hb, hl]

/-- The state after a rank has gone to another phase within a call. -/
def World.moved (w : World μ ν α) (r : Nat) (phase : Phase) (unex : List UnexConn) (listen : List Nat) : World μ ν α :=
  { w with
    phase := update w.phase r phase, unexpectedConnections := update w.unexpectedConnections r unex,
    listenSock := update w.listenSock r listen }

theorem Inv.moved (h : Inv w) {phase : Phase} {unex : List UnexConn} {listen : List Nat}
    (hbefore : ∀ sock, w.phase r ≠ .sending sock) (hafter : ∀ sock, phase ≠ .sending sock)
    (hmem : ∀ sock ∈ held phase unex listen, sock ∈ w.pending r)
    (horder : ∀ p t, (held phase unex listen).filter (fun sock => (w.carries p r t sock).isSome) =
      (w.pending r).filter (fun sock => (w.carries p r t sock).isSome))
    (hparked : ∀ u ∈ unex, ∃ c, w.conns[u.sock]? = some c ∧ c.src = u.peer ∧ c.tag = u.tag)
    (hwaiting : (phase = .accepting ∨ ∃ sock, phase = .accepted sock) → ∃ src t next,
      w.procs r = .recv src (.tag t) next ∧ ∀ u ∈ unex, ¬ (u.peer = src ∧ u.tag = t))
    (hreading : ∀ sock, phase = .receiving sock → ∃ c next, w.conns[sock]? = some c ∧
      w.procs r = .recv c.src (.tag c.tag) next) : Follows w (w.moved r phase unex listen) r := by
  have hphase : (w.moved r phase unex listen).phase r = phase := update_self _ _ _
  have hunex : (w.moved r phase unex listen).unexpectedConnections r = unex := update_self _ _ _
  have hlisten : (w.moved r phase unex listen).listenSock r = listen := update_self _ _ _
  have hphase' : ∀ x, x ≠ r → (w.moved r phase unex listen).phase x = w.phase x := fun x hx => update_of_ne hx _ _
  have hpending : (w.moved r phase unex listen).pending r = held phase unex listen := by
    rw [World.pending, hphase, hunex, hlisten]
  have hpending' : ∀ x, x ≠ r → (w.moved r phase unex listen).pending x = w.pending x := fun x hx => by
    rw [World.pending, hphase' x hx, show (w.moved r phase unex listen).unexpectedConnections x = _ from update_of_ne hx _ _,
      show (w.moved r phase unex listen).listenSock x = _ from update_of_ne hx _ _]
    rfl
  refine ⟨⟨fun x => ?_, fun sock c hc => ?_, h.fresh⟩, .inl (Network.ext (funext fun x => ?_) (funext ?_) rfl)⟩
  · by_cases hx : x = r
    · subst hx
      constructor
      · intro sock hsock
        refine (h.rank x).home sock ?_
        rw [World.places, hpending] at hsock
        rcases mem_append.1 hsock with hsock | hsock
        · exact mem_append_left _ hsock
        · exact mem_append_right _ (hmem sock hsock)
      · intro p t
        refine ((h.rank x).order p t).trans ?_
        rw [World.places, World.places, hpending, filter_append, ← horder, ← filter_append]
        rfl
      · rw [hunex]
        exact hparked
      · rw [hphase, hunex]
        exact hwaiting
      · rw [hphase]
        exact hreading
      · intro sock hsock
        rw [hphase] at hsock
        exact absurd hsock (hafter sock)
    · refine (h.rank x).congr rfl rfl (hphase' x hx) (update_of_ne hx _ _) (update_of_ne hx _ _) rfl fun sock hsock => ?_
      obtain ⟨-, -, -, -, -, hne⟩ := (h.rank x).writing sock hsock
      exact hne
  · refine (h.written sock c hc).imp_right fun hsending => ?_
    by_cases hx : c.src = r
    · rw [hx] at hsending
      exact absurd hsending (hbefore sock)
    · rw [hphase' _ hx]
      exact hsending
  · change (w.moved r phase unex listen).ahead x = w.ahead x
    by_cases hx : x = r
    · subst hx
      have hquiet : ∀ {v : World μ ν α}, (∀ sock, v.phase x ≠ .sending sock) → v.ahead x = v.procs x := by
        intro v hv
        unfold World.ahead
        split
        · rename_i sock _ _ _ next hsending _
          exact absurd hsending (hv sock)
        · rfl
      rw [hquiet hbefore, hquiet (by rwa [hphase])]
      rfl
    · rw [World.ahead, World.ahead, hphase' x hx]
      rfl
  · rintro ⟨p, x, port⟩
    cases port with
    | ring => rfl
    | tag t =>
      change ((w.moved r phase unex listen).pending x).filterMap (w.carries p x t) = (w.pending x).filterMap (w.carries p x t)
      by_cases hx : x = r
      · subst hx
        rw [hpending, ← filterMap_filter, horder, filterMap_filter]
      · rw [hpending' x hx]

/-! ## One step -/

variable {peer : Nat} {l : List UnexConn}

theorem unexpectedDequeue_none {tag : Int} (h : unexpectedDequeue l peer tag = none) :
    ∀ u ∈ l, ¬ (u.peer = peer ∧ u.tag = tag) := by
  induction l with
  | nil => exact fun u hu => by cases hu
  | cons elem next ih =>
    rw [unexpectedDequeue] at h
    split_ifs at h with helem
    rw [map_eq_none_iff] at h
    intro u hu
    rcases mem_cons.1 hu with rfl | hu
    · exact helem
    · exact ih h u hu

variable {sock : Nat}

theorem unexpectedDequeue_some {tag : Int} {rest : List UnexConn}
    (h : unexpectedDequeue l peer tag = some (sock, rest)) : ∃ before after u, l = before ++ u :: after ∧
      rest = before ++ after ∧ u.sock = sock ∧ u.peer = peer ∧ u.tag = tag ∧
      ∀ v ∈ before, ¬ (v.peer = peer ∧ v.tag = tag) := by
  induction l generalizing rest with
  | nil => cases h
  | cons elem next ih =>
    rw [unexpectedDequeue] at h
    split_ifs at h with helem
    · cases h
      exact ⟨[], _, elem, rfl, rfl, rfl, helem.1, helem.2, fun v hv => by cases hv⟩
    · obtain ⟨⟨sock', list⟩, hfound, heq⟩ := map_eq_some_iff.1 h
      cases heq
      obtain ⟨before, after, u, hl, hlist, hsock, hpeer, htag, hbefore⟩ := ih hfound
      refine ⟨elem :: before, after, u, ?_, ?_, hsock, hpeer, htag, fun v hv => ?_⟩
      · rw [hl, cons_append]
      · rw [hlist, cons_append]
      · rcases mem_cons.1 hv with rfl | hv
        · exact helem
        · exact hbefore v hv

variable {c : Conn μ}

theorem carries_isSome {p : Nat} {t : Int} (hc : w.conns[sock]? = some c) :
    (w.carries p r t sock).isSome = true ↔ c.src = p ∧ c.dst = r ∧ c.tag = t := by
  rw [World.carries, hc]
  dsimp only
  split_ifs with h
  · simp [h]
  · simp [h]

theorem ahead_idle (h : w.phase r = .idle) : w.ahead r = w.procs r := by rw [World.ahead, h]

theorem pending_idle (h : w.phase r = .idle) :
    w.pending r = (w.unexpectedConnections r).map UnexConn.sock ++ w.listenSock r := by
  simp [World.pending, held, h]

theorem RankInv.resume (h : RankInv w r) (hconns : w'.conns = w.conns) (hphase : w'.phase r = .idle)
    (hunex : w'.unexpectedConnections r = w.unexpectedConnections r) (hplaces : w'.places r = w.places r) : RankInv w' r := by
  constructor
  · rw [hplaces, hconns]
    exact h.home
  · intro p t
    rw [carries_congr hconns, hplaces, hconns]
    exact h.order p t
  · rw [hunex, hconns]
    exact h.parked
  · rw [hphase]
    intro hw
    rcases hw with hw | ⟨sock, hw⟩
    · cases hw
    · cases hw
  · rw [hphase]
    intro sock hsock
    cases hsock
  · rw [hphase]
    intro sock hsock
    cases hsock

variable {next : Coll μ ν α}

theorem Inv.between (h : Inv w) (w' : World μ ν α) (hidle : w.phase r = .idle) (hconns : w'.conns = w.conns) (hstage : w'.stage = w.stage)
    (hphase : w'.phase = w.phase) (hclosed : w'.closed = w.closed)
    (hunex : w'.unexpectedConnections = w.unexpectedConnections) (hlisten : w'.listenSock = w.listenSock) (hprocs : w'.procs = update w.procs r next) : Inv w' ∧ w'.ahead = update w.ahead r next ∧
      ∀ p x t, w'.network.chans (p, x, .tag t) = w.network.chans (p, x, .tag t) := by
  have hprocs' : ∀ x, x ≠ r → w'.procs x = w.procs x := fun x hx => by rw [hprocs, update_of_ne hx]
  refine ⟨⟨fun x => ?_, fun sock c hc => ?_, fun sock hsock => ?_⟩, funext fun x => ?_, fun p x t => ?_⟩
  · by_cases hx : x = r
    · subst hx
      refine (h.rank x).resume hconns (by rw [hphase, hidle]) (by rw [hunex]) ?_
      rw [World.places, World.places, World.pending, World.pending, hphase, hunex, hlisten, hclosed]
    · refine (h.rank x).congr hconns (hprocs' x hx) (by rw [hphase]) (by rw [hunex]) (by rw [hlisten]) (by rw [hclosed])
        fun sock hsock => ?_
      obtain ⟨-, -, -, -, -, hne⟩ := (h.rank x).writing sock hsock
      rwa [hstage]
  · rw [hconns] at hc
    rw [hstage, hphase]
    exact h.written sock c hc
  · rw [hconns] at hsock
    rw [hstage]
    exact h.fresh sock hsock
  · by_cases hx : x = r
    · subst hx
      rw [ahead_idle (by rw [hphase, hidle]), hprocs, update_self, update_self]
    · rw [update_of_ne hx, World.ahead, World.ahead, hphase, hprocs' x hx]
  · change (w'.pending x).filterMap (w'.carries p x t) = (w.pending x).filterMap (w.carries p x t)
    rw [carries_congr hconns, World.pending, World.pending, hphase, hunex, hlisten]

theorem Inv.note (h : Inv w) (hidle : w.phase r = .idle) {v : ν} (hproc : w.procs r = .note v next) :
    Follows w { w with procs := update w.procs r next, notes := update w.notes r (w.notes r ++ [v]) } r := by
  obtain ⟨hinv, hahead, hchans⟩ := h.between
    { w with procs := update w.procs r next, notes := update w.notes r (w.notes r ++ [v]) } hidle rfl rfl rfl rfl rfl rfl rfl
  refine ⟨hinv, .inr ((Network.step_note ((ahead_idle hidle).trans hproc)).trans ?_)⟩
  refine congrArg some (Network.ext hahead.symm (funext fun ⟨p, x, port⟩ => ?_) rfl)
  cases port with
  | ring => rfl
  | tag t => exact (hchans p x t).symm

variable {src : Nat}

theorem network_ring {dst : Nat} {l : List μ} (hrings : w'.rings = update w.rings (src, dst) l)
    (hchans : ∀ p x t, w'.network.chans (p, x, .tag t) = w.network.chans (p, x, .tag t)) :
    update w.network.chans (src, dst, .ring) l = w'.network.chans := by
  funext ⟨p, x, port⟩
  cases port with
  | ring =>
    change _ = w'.rings (p, x)
    rw [hrings]
    by_cases hc : (p, x) = (src, dst)
    · cases hc
      rw [update_self, update_self]
    · rw [update_of_ne hc, update_of_ne]
      · rfl
      · intro heq
        cases heq
        exact hc rfl
  | tag t =>
    rw [hchans, update_of_ne]
    simp

theorem Inv.ringSend (h : Inv w) (hidle : w.phase r = .idle) {dst : Nat} {m : μ}
    (hproc : w.procs r = .send dst .ring m next) :
    Follows w { w with procs := update w.procs r next, rings := update w.rings (r, dst) (w.rings (r, dst) ++ [m]) } r := by
  obtain ⟨hinv, hahead, hchans⟩ := h.between
    { w with procs := update w.procs r next, rings := update w.rings (r, dst) (w.rings (r, dst) ++ [m]) }
    hidle rfl rfl rfl rfl rfl rfl rfl
  refine ⟨hinv, .inr ((Network.step_send ((ahead_idle hidle).trans hproc)).trans ?_)⟩
  exact congrArg some (Network.ext hahead.symm (network_ring rfl hchans) rfl)

theorem Inv.ringRecv (h : Inv w) (hidle : w.phase r = .idle) {next : μ → Coll μ ν α} {m : μ} {rest : List μ}
    (hproc : w.procs r = .recv src .ring next) (hring : w.rings (src, r) = m :: rest) :
    Follows w { w with procs := update w.procs r (next m), rings := update w.rings (src, r) rest } r := by
  obtain ⟨hinv, hahead, hchans⟩ := h.between
    { w with procs := update w.procs r (next m), rings := update w.rings (src, r) rest } hidle rfl rfl rfl rfl rfl rfl rfl
  refine ⟨hinv, .inr ((Network.step_recv (m := m) (l := rest) ((ahead_idle hidle).trans hproc) hring).trans ?_)⟩
  exact congrArg some (Network.ext hahead.symm (network_ring rfl hchans) rfl)

def World.connected (w : World μ ν α) (r dst : Nat) (t : Int) (m : μ) : World μ ν α :=
  { w with
    phase := update w.phase r (.sending w.conns.length), conns := w.conns ++ [⟨r, dst, t, m⟩],
    listenSock := update w.listenSock dst (w.listenSock dst ++ [w.conns.length]) }

section Connected
variable {dst : Nat} {t : Int} {m : μ}

theorem connected_getElem (hc : w.conns[sock]? = some c) : (w.connected r dst t m).conns[sock]? = some c := by
  obtain ⟨hlt, -⟩ := List.getElem?_eq_some_iff.1 hc
  exact (getElem?_append_left hlt).trans hc

theorem connected_carries {p x : Nat} {t' : Int} (hsock : sock < w.conns.length) :
    (w.connected r dst t m).carries p x t' sock = w.carries p x t' sock := by
  have : (w.connected r dst t m).conns[sock]? = w.conns[sock]? := getElem?_append_left hsock
  rw [World.carries, World.carries, this]

theorem connected_carries_new (p x : Nat) (t' : Int) : (w.connected r dst t m).carries p x t' w.conns.length =
    if r = p ∧ dst = x ∧ t = t' then some m else none := by
  have : (w.connected r dst t m).conns[w.conns.length]? = some ⟨r, dst, t, m⟩ := getElem?_concat_length
  rw [World.carries, this]

theorem connected_pending (hidle : w.phase r = .idle) (x : Nat) :
    (w.connected r dst t m).pending x = w.pending x ++ if x = dst then [w.conns.length] else [] := by
  have hphase : (w.connected r dst t m).phase x = if x = r then .sending w.conns.length else w.phase x := by
    by_cases hx : x = r
    · rw [if_pos hx, hx]
      exact update_self _ _ _
    · rw [if_neg hx]
      exact update_of_ne hx _ _
  have hlisten : (w.connected r dst t m).listenSock x = w.listenSock x ++ if x = dst then [w.conns.length] else [] := by
    by_cases hx : x = dst
    · rw [if_pos hx, hx]
      exact update_self _ _ _
    · rw [if_neg hx, append_nil]
      exact update_of_ne hx _ _
  rw [World.pending, World.pending, hphase, hlisten]
  by_cases hx : x = r
  · rw [if_pos hx, hx, hidle]
    simp [World.connected, held]
  · rw [if_neg hx]
    simp [World.connected, held]

end Connected

theorem Inv.lt_length (h : Inv w) {x : Nat} (hsock : sock ∈ w.places x) : sock < w.conns.length := by
  obtain ⟨c, hc, -⟩ := (h.rank x).home sock hsock
  exact (List.getElem?_eq_some_iff.1 hc).1

theorem Inv.connect (h : Inv w) (hidle : w.phase r = .idle) {dst : Nat} {t : Int} {m : μ}
    (hproc : w.procs r = .send dst (.tag t) m next) : Follows w (w.connected r dst t m) r := by
  have hplaces : ∀ x, (w.connected r dst t m).places x = w.places x ++ if x = dst then [w.conns.length] else [] := by
    intro x
    rw [World.places, connected_pending hidle, ← append_assoc]
    rfl
  have hmessages : ∀ p x t' (l : List Nat), (∀ sock ∈ l, sock < w.conns.length) →
      l.filter (fun sock => ((w.connected r dst t m).carries p x t' sock).isSome) =
        l.filter (fun sock => (w.carries p x t' sock).isSome) := by
    intro p x t' l hl
    exact filter_congr fun sock hsock => by rw [connected_carries (hl sock hsock)]
  have hphase : ∀ x, x ≠ r → (w.connected r dst t m).phase x = w.phase x := fun x hx => update_of_ne hx _ _
  refine ⟨⟨fun x => ?_, fun sock c hc => ?_, fun sock hsock => ?_⟩, .inr ?_⟩
  · constructor
    · intro sock hsock
      rw [hplaces] at hsock
      rcases mem_append.1 hsock with hsock | hsock
      · obtain ⟨c, hc, hdst⟩ := (h.rank x).home sock hsock
        exact ⟨c, connected_getElem hc, hdst⟩
      · split_ifs at hsock with hx
        · obtain rfl := mem_singleton.1 hsock
          exact ⟨⟨r, dst, t, m⟩, getElem?_concat_length, hx.symm⟩
        · cases hsock
    · intro p t'
      have hlength : (w.connected r dst t m).conns.length = w.conns.length + 1 := length_append
      rw [hplaces, hlength, range_succ, filter_append, filter_append,
        hmessages p x t' (range _) (fun sock hsock => mem_range.1 hsock),
        hmessages p x t' (w.places x) (fun sock hsock => h.lt_length hsock), (h.rank x).order]
      congr 1
      by_cases hx : x = dst
      · rw [if_pos hx]
      · rw [if_neg hx, filter_nil, filter_eq_nil_iff]
        intro sock hsock
        obtain rfl := mem_singleton.1 hsock
        rw [connected_carries_new, if_neg (fun hc => hx hc.2.1.symm)]
        exact Bool.false_ne_true
    · intro u hu
      obtain ⟨c, hc, hkey⟩ := (h.rank x).parked u hu
      exact ⟨c, connected_getElem hc, hkey⟩
    · by_cases hx : x = r
      · subst hx
        rw [show (w.connected x dst t m).phase x = .sending w.conns.length from update_self _ _ _]
        intro hw
        rcases hw with hw | ⟨sock, hw⟩
        · cases hw
        · cases hw
      · rw [hphase x hx]
        exact (h.rank x).waiting
    · by_cases hx : x = r
      · subst hx
        rw [show (w.connected x dst t m).phase x = .sending w.conns.length from update_self _ _ _]
        intro sock hsock
        cases hsock
      · rw [hphase x hx]
        intro sock hsock
        obtain ⟨c, next', hc, hnext⟩ := (h.rank x).reading sock hsock
        exact ⟨c, next', connected_getElem hc, hnext⟩
    · by_cases hx : x = r
      · subst hx
        rw [show (w.connected x dst t m).phase x = .sending w.conns.length from update_self _ _ _]
        intro sock hsock
        cases hsock
        refine ⟨⟨x, dst, t, m⟩, next, getElem?_concat_length, rfl, hproc, ?_⟩
        change w.stage _ ≠ _
        rw [h.fresh _ (le_rfl)]
        decide
      · rw [hphase x hx]
        intro sock hsock
        obtain ⟨c, next', hc, hkey⟩ := (h.rank x).writing sock hsock
        exact ⟨c, next', connected_getElem hc, hkey⟩
  · rcases lt_or_ge sock w.conns.length with hlt | hge
    · have hc' : w.conns[sock]? = some c := (getElem?_append_left hlt).symm.trans hc
      refine (h.written sock c hc').imp_right fun hsending => ?_
      by_cases hx : c.src = r
      · rw [hx, hidle] at hsending
        cases hsending
      · rw [hphase _ hx]
        exact hsending
    · obtain ⟨hlt, heq⟩ := List.getElem?_eq_some_iff.1 hc
      have hlength : (w.connected r dst t m).conns.length = w.conns.length + 1 := length_append
      obtain rfl : sock = w.conns.length := by omega
      have hnew : (w.connected r dst t m).conns[w.conns.length]? = some ⟨r, dst, t, m⟩ := getElem?_concat_length
      rw [hc] at hnew
      cases hnew
      exact .inr (update_self _ _ _)
  · have hlength : (w.connected r dst t m).conns.length = w.conns.length + 1 := length_append
    exact h.fresh sock (by omega)
  · refine (Network.step_send ((ahead_idle hidle).trans hproc)).trans (congrArg some (Network.ext ?_ ?_ rfl))
    · funext x
      by_cases hx : x = r
      · subst hx
        refine (update_self _ _ _).trans ?_
        change next = (w.connected x dst t m).ahead x
        rw [World.ahead, show (w.connected x dst t m).phase x = .sending w.conns.length from update_self _ _ _,
          show (w.connected x dst t m).procs x = w.procs x from rfl, hproc]
      · refine (update_of_ne hx _ _).trans ?_
        change w.ahead x = (w.connected r dst t m).ahead x
        rw [World.ahead, World.ahead, hphase x hx]
        rfl
    · funext c
      obtain ⟨p, x, port⟩ := c
      cases port with
      | ring => exact update_of_ne (by simp) _ _
      | tag t' =>
        have hchan : (w.connected r dst t m).network.chans (p, x, .tag t') = w.network.chans (p, x, .tag t') ++
            if r = p ∧ dst = x ∧ t = t' then [m] else [] := by
          change ((w.connected r dst t m).pending x).filterMap _ = (w.pending x).filterMap _ ++ _
          have hold : (w.pending x).filterMap ((w.connected r dst t m).carries p x t') =
              (w.pending x).filterMap (w.carries p x t') :=
            List.filterMap_congr fun sock hsock => connected_carries (h.lt_length (mem_append_right _ hsock))
          rw [connected_pending hidle, filterMap_append, hold]
          congr 1
          by_cases hx : x = dst
          · rw [if_pos hx, filterMap_cons, connected_carries_new]
            split_ifs <;> rfl
          · rw [if_neg hx, if_neg (fun hc => hx hc.2.1.symm)]
            rfl
        rw [hchan]
        by_cases hc : r = p ∧ dst = x ∧ t = t'
        · obtain ⟨rfl, rfl, rfl⟩ := hc
          rw [if_pos ⟨rfl, rfl, rfl⟩]
          exact update_self _ _ _
        · rw [if_neg hc, append_nil]
          refine update_of_ne ?_ _ _
          intro heq
          cases heq
          exact hc ⟨rfl, rfl, rfl⟩

theorem RankInv.not_carries (h : RankInv w r) (hl : ∀ u ∈ l, u ∈ w.unexpectedConnections r)
    {tag : Int} (hne : ∀ u ∈ l, ¬ (u.peer = peer ∧ u.tag = tag)) (hc : w.conns[sock]? = some c)
    (hpeer : c.src = peer) (htag : c.tag = tag) (p : Nat) (t : Int) :
    (w.carries p r t sock).isSome = true → ∀ sock' ∈ l.map UnexConn.sock, (w.carries p r t sock').isSome = false := by
  intro hcarries sock' hsock'
  obtain ⟨hp, -, ht⟩ := (carries_isSome hc).1 hcarries
  obtain ⟨u, hu, rfl⟩ := mem_map.1 hsock'
  obtain ⟨c', hc', hpeer', htag'⟩ := h.parked u (hl u hu)
  rw [Bool.eq_false_iff]
  intro hcarries'
  obtain ⟨hp', -, ht'⟩ := (carries_isSome hc').1 hcarries'
  refine hne u hu ⟨?_, ?_⟩
  · rw [← hpeer', hp', ← hp, hpeer]
  · rw [← htag', ht', ← ht, htag]

section

variable {t : Int} {next : μ → Coll μ ν α} (h : Inv w) (hidle : w.phase r = .idle)
  (hproc : w.procs r = .recv src (.tag t) next)
include h hidle hproc

theorem Inv.dequeue {rest : List UnexConn}
    (hfound : unexpectedDequeue (w.unexpectedConnections r) src t = some (sock, rest)) :
    Follows w (w.moved r (.receiving sock) rest (w.listenSock r)) r := by
  obtain ⟨before, after, u, hl, rfl, rfl, hpeer, htag, hbefore⟩ := unexpectedDequeue_some hfound
  have hr := h.rank r
  obtain ⟨c, hc, hsrc, htag'⟩ := hr.parked u (by rw [hl]; simp)
  have hpending : w.pending r = before.map UnexConn.sock ++ u.sock :: (after.map UnexConn.sock ++ w.listenSock r) := by
    rw [pending_idle hidle, hl]
    simp
  have hpending' : held (.receiving u.sock) (before ++ after) (w.listenSock r) =
      u.sock :: (before.map UnexConn.sock ++ (after.map UnexConn.sock ++ w.listenSock r)) := by
    simp [held]
  refine h.moved (fun sock' => by rw [hidle]; simp) (fun sock' => by simp) ?_ ?_ ?_ ?_ ?_
  · rw [hpending, hpending']
    intro sock'
    simp only [mem_cons, mem_append]
    tauto
  · intro p t'
    rw [hpending, hpending']
    refine filter_forward (hr.not_carries (fun v hv => ?_) hbefore hc (hsrc.trans hpeer) (htag'.trans htag) p t') _
    rw [hl]
    exact mem_append_left _ hv
  · intro v hv
    refine hr.parked v ?_
    rw [hl]
    rcases mem_append.1 hv with hv | hv
    · exact mem_append_left _ hv
    · exact mem_append_right _ (mem_cons_of_mem _ hv)
  · simp
  · intro sock' hsock
    cases hsock
    refine ⟨c, next, hc, ?_⟩
    rw [hproc, hsrc, hpeer, htag', htag]

theorem Inv.notFound (hnone : unexpectedDequeue (w.unexpectedConnections r) src t = none) :
    Follows w (w.moved r .accepting (w.unexpectedConnections r) (w.listenSock r)) r := by
  have hpending : held .accepting (w.unexpectedConnections r) (w.listenSock r) = w.pending r := by
    rw [pending_idle hidle]
    simp [held]
  refine h.moved (fun sock => by rw [hidle]; simp) (fun sock => by simp) (fun sock hsock => by rwa [hpending] at hsock)
    (fun p t' => by rw [hpending]) (h.rank r).parked (fun _ => ?_) (fun sock hsock => by cases hsock)
  exact ⟨src, t, next, hproc, unexpectedDequeue_none hnone⟩

end

theorem Inv.accept (h : Inv w) (hphase : w.phase r = .accepting) {choice : Nat} (hstep : w.accept r choice = some w') :
    Follows w w' r := by
  have hr := h.rank r
  unfold World.accept at hstep
  cases hsock : (w.listenSock r)[choice]? with
  | none =>
    rw [hsock] at hstep
    cases hstep
  | some sock =>
    rw [hsock] at hstep
    dsimp only at hstep
    split_ifs at hstep with hfirst
    obtain ⟨hlt, hget⟩ := List.getElem?_eq_some_iff.1 hsock
    have hsplit : w.listenSock r = (w.listenSock r).take choice ++ sock :: (w.listenSock r).drop (choice + 1) := by
      rw [← hget, getElem_cons_drop, take_append_drop]
    have herase : (w.listenSock r).eraseIdx choice = (w.listenSock r).take choice ++ (w.listenSock r).drop (choice + 1) :=
      eraseIdx_eq_take_drop_succ _ _
    have hw' : w' = w.moved r (.accepted sock) (w.unexpectedConnections r) ((w.listenSock r).eraseIdx choice) := by
      rw [← some.inj hstep, World.moved, update_eq_self]
    rw [hw', herase]
    generalize (w.listenSock r).take choice = before at *
    generalize (w.listenSock r).drop (choice + 1) = after at *
    have hpending : w.pending r = (w.unexpectedConnections r).map UnexConn.sock ++ (before ++ sock :: after) := by
      rw [World.pending, hphase, hsplit]
      simp [held]
    have hpending' : held (.accepted sock) (w.unexpectedConnections r) (before ++ after) =
        (w.unexpectedConnections r).map UnexConn.sock ++ (sock :: (before ++ after)) := by
      simp [held]
    refine h.moved (fun sock' => by rw [hphase]; simp) (fun sock' => by simp) ?_ ?_ hr.parked (fun _ => ?_)
      (fun sock' hsock' => by cases hsock')
    · rw [hpending, hpending']
      intro sock'
      simp only [mem_cons, mem_append]
      tauto
    · intro p t
      rw [hpending, hpending', filter_append, filter_append]
      refine congrArg _ (filter_forward (fun hcarries sock' hsock' => ?_) after)
      -- an earlier connection is of another sender
      have hapart := (all_eq_true.1 hfirst) sock' hsock'
      obtain ⟨c, hc, hdst⟩ := hr.home sock (by
        rw [World.places, hpending]
        simp)
      obtain ⟨c', hc', hdst'⟩ := hr.home sock' (by
        rw [World.places, hpending]
        simp [hsock'])
      rw [decide_eq_true_eq, World.peerOf, World.peerOf, hc, hc', map_some, map_some] at hapart
      rw [Bool.eq_false_iff]
      intro hcarries'
      have hsrc := ((carries_isSome hc).1 hcarries).1
      have hsrc' := ((carries_isSome hc').1 hcarries').1
      exact hapart (by rw [hsrc, hsrc'])
    · exact hr.waiting (.inl hphase)

theorem Inv.identify (h : Inv w) (hphase : w.phase r = .accepted sock) (hstep : w.identify r sock = some w') :
    Follows w w' r := by
  have hr := h.rank r
  obtain ⟨src, t, next, hproc, hunmatched⟩ := hr.waiting (.inr ⟨sock, hphase⟩)
  obtain ⟨c, hc, hdst⟩ := hr.home sock (by simp [World.places, World.pending, held, hphase])
  have hpending : w.pending r = (w.unexpectedConnections r).map UnexConn.sock ++ sock :: w.listenSock r := by
    rw [World.pending, hphase]
    simp [held]
  rw [World.identify, hc, hproc] at hstep
  dsimp only at hstep
  split_ifs at hstep with hopened hmatch
  · have hw' : w' = w.moved r (.receiving sock) (w.unexpectedConnections r) (w.listenSock r) := by
      rw [← some.inj hstep, World.moved, update_eq_self, update_eq_self]
    have hpending' : held (.receiving sock) (w.unexpectedConnections r) (w.listenSock r) =
        sock :: ((w.unexpectedConnections r).map UnexConn.sock ++ w.listenSock r) := by
      simp [held]
    rw [hw']
    refine h.moved (fun sock' => by rw [hphase]; simp) (fun sock' => by simp) ?_ ?_ hr.parked ?_ ?_
    · rw [hpending, hpending']
      intro sock'
      simp only [mem_cons, mem_append]
      tauto
    · intro p t'
      rw [hpending, hpending']
      exact filter_forward (hr.not_carries (fun _ hu => hu) hunmatched hc hmatch.1 hmatch.2 p t') _
    · simp
    · intro sock' hsock'
      cases hsock'
      exact ⟨c, next, hc, by rw [hproc, hmatch.1, hmatch.2]⟩
  · have hw' : w' = w.moved r .accepting (w.unexpectedConnections r ++ [⟨c.src, c.tag, sock⟩]) (w.listenSock r) := by
      rw [← some.inj hstep, World.moved, update_eq_self]
      rfl
    have hpending' : held .accepting (w.unexpectedConnections r ++ [⟨c.src, c.tag, sock⟩]) (w.listenSock r) = w.pending r := by
      rw [hpending]
      simp [held]
    have hnew : ∀ u ∈ w.unexpectedConnections r ++ [⟨c.src, c.tag, sock⟩],
        u ∈ w.unexpectedConnections r ∨ u = ⟨c.src, c.tag, sock⟩ := fun u hu =>
      (mem_append.1 hu).imp_right mem_singleton.1
    rw [hw']
    refine h.moved (fun sock' => by rw [hphase]; simp) (fun sock' => by simp)
      (fun sock' hsock' => by rwa [hpending'] at hsock') (fun p t' => by rw [hpending']) (fun u hu => ?_)
      (fun _ => ⟨src, t, next, hproc, fun u hu => ?_⟩) (fun sock' hsock' => by cases hsock')
    · rcases hnew u hu with hu | rfl
      · exact hr.parked u hu
      · exact ⟨c, hc, rfl, rfl⟩
    · rcases hnew u hu with hu | rfl
      · exact hunmatched u hu
      · exact hmatch

theorem Inv.write (h : Inv w) (hphase : w.phase r = .sending sock) (hstep : w.write r sock = some w') : Follows w w' r := by
  obtain ⟨c, next, hc, hsrc, hproc, hne⟩ := (h.rank r).writing sock hphase
  have hapart : ∀ x, x ≠ r → ∀ sock', w.phase x = .sending sock' → sock' ≠ sock := by
    intro x hx sock' hsock' heq
    obtain ⟨c', -, hc', hsrc', -⟩ := (h.rank x).writing sock' hsock'
    rw [heq, hc] at hc'
    cases hc'
    exact hx (hsrc'.symm.trans hsrc)
  have hlt : sock < w.conns.length := (List.getElem?_eq_some_iff.1 hc).1
  unfold World.write at hstep
  split at hstep
  · obtain rfl := some.inj hstep
    refine ⟨⟨fun x => ?_, fun sock' c' hc' => ?_, fun sock' hsock' => ?_⟩, .inl rfl⟩
    · refine (h.rank x).congr rfl rfl rfl rfl rfl rfl fun sock' hsock' => ?_
      obtain ⟨-, -, -, -, -, hne'⟩ := (h.rank x).writing sock' hsock'
      by_cases heq : sock' = sock
      · rw [heq]
        change update w.stage sock .named sock ≠ .sent
        rw [update_self]
        decide
      · exact fun hsent => hne' ((update_of_ne heq _ _).symm.trans hsent)
    · by_cases heq : sock' = sock
      · rw [heq] at hc' ⊢
        rw [hc] at hc'
        cases hc'
        exact .inr (by rw [hsrc]; exact hphase)
      · exact (h.written sock' c' hc').imp_left fun hsent => (update_of_ne heq _ _).trans hsent
    · exact (update_of_ne (ne_of_gt (hlt.trans_le hsock')) _ _).trans (h.fresh sock' hsock')
  · rename_i dst port m next' hstage hproc'
    rw [hproc] at hproc'
    cases hproc'
    have hw' := (some.inj hstep).symm
    have hidle : w'.phase r = .idle := by
      rw [hw']
      exact update_self _ _ _
    have hother : ∀ x, x ≠ r → w'.phase x = w.phase x ∧ w'.procs x = w.procs x := fun x hx => by
      rw [hw']
      exact ⟨update_of_ne hx _ _, update_of_ne hx _ _⟩
    have hpending : ∀ x, w'.pending x = w.pending x := by
      intro x
      by_cases hx : x = r
      · rw [World.pending, World.pending, hx, hidle, hphase, hw']
        rfl
      · rw [World.pending, World.pending, (hother x hx).1, hw']
        rfl
    refine ⟨⟨fun x => ?_, fun sock' c' hc' => ?_, fun sock' hsock' => ?_⟩, .inl (Network.ext (funext fun x => ?_) (funext ?_) ?_)⟩
    · by_cases hx : x = r
      · subst hx
        refine (h.rank x).resume (by rw [hw']; rfl) hidle (by rw [hw']; rfl) ?_
        rw [World.places, World.places, hpending, hw']
        rfl
      · refine (h.rank x).congr (by rw [hw']; rfl) (hother x hx).2 (hother x hx).1 (by rw [hw']; rfl) (by rw [hw']; rfl)
          (by rw [hw']; rfl) fun sock' hsock' => ?_
        obtain ⟨-, -, -, -, -, hne'⟩ := (h.rank x).writing sock' hsock'
        rw [hw']
        exact fun hsent => hne' ((update_of_ne (hapart x hx sock' hsock') _ _).symm.trans hsent)
    · rw [hw'] at hc'
      by_cases heq : sock' = sock
      · refine .inl ?_
        rw [hw', heq]
        exact update_self _ _ _
      · refine (h.written sock' c' hc').imp (fun hsent => ?_) fun hsending => ?_
        · rw [hw']
          exact (update_of_ne heq _ _).trans hsent
        · by_cases hx : c'.src = r
          · rw [hx, hphase] at hsending
            cases hsending
            exact absurd rfl heq
          · rw [(hother _ hx).1]
            exact hsending
    · rw [hw'] at hsock' ⊢
      exact (update_of_ne (ne_of_gt (hlt.trans_le hsock')) _ _).trans (h.fresh sock' hsock')
    · change w'.ahead x = w.ahead x
      by_cases hx : x = r
      · subst hx
        rw [ahead_idle hidle, World.ahead, hphase, hproc, hw']
        exact update_self _ _ _
      · rw [World.ahead, World.ahead, (hother x hx).1, (hother x hx).2]
    · rintro ⟨p, x, port⟩
      cases port with
      | ring =>
        rw [hw']
        rfl
      | tag t =>
        change (w'.pending x).filterMap (w'.carries p x t) = (w.pending x).filterMap (w.carries p x t)
        rw [hpending, hw']
        rfl
    · rw [hw']
      rfl
  · cases hstep

theorem Inv.read (h : Inv w) (hphase : w.phase r = .receiving sock) (hstep : w.read r sock = some w') : Follows w w' r := by
  obtain ⟨c, next, hc, hproc⟩ := (h.rank r).reading sock hphase
  rw [World.read, hc, hproc] at hstep
  split_ifs at hstep with hsent
  have hw' := (some.inj hstep).symm
  have hidle : w'.phase r = .idle := by
    rw [hw']
    exact update_self _ _ _
  have hother : ∀ x, x ≠ r → w'.phase x = w.phase x ∧ w'.procs x = w.procs x ∧ w'.closed x = w.closed x := fun x hx => by
    rw [hw']
    exact ⟨update_of_ne hx _ _, update_of_ne hx _ _, update_of_ne hx _ _⟩
  have hpending : w.pending r = sock :: w'.pending r := by
    rw [World.pending, World.pending, hidle, hphase, hw']
    rfl
  have hpending' : ∀ x, x ≠ r → w'.pending x = w.pending x := fun x hx => by
    rw [World.pending, World.pending, (hother x hx).1, hw']
    rfl
  have hclosed : w'.closed r = w.closed r ++ [sock] := by
    rw [hw']
    exact update_self _ _ _
  obtain ⟨c', hc', hdst⟩ := (h.rank r).home sock (by
    rw [World.places, hpending]
    simp)
  rw [hc] at hc'
  cases hc'
  refine ⟨⟨fun x => ?_, fun sock' c' hc' => ?_, fun sock' hsock' => ?_⟩, .inr ?_⟩
  · by_cases hx : x = r
    · subst hx
      refine (h.rank x).resume (by rw [hw']; rfl) hidle (by rw [hw']; rfl) ?_
      rw [World.places, World.places, hclosed, hpending, append_assoc]
      rfl
    · refine (h.rank x).congr (by rw [hw']; rfl) (hother x hx).2.1 (hother x hx).1 (by rw [hw']; rfl) (by rw [hw']; rfl)
        (hother x hx).2.2 fun sock' hsock' => ?_
      obtain ⟨-, -, -, -, -, hne⟩ := (h.rank x).writing sock' hsock'
      rw [hw']
      exact hne
  · rw [hw'] at hc' ⊢
    refine (h.written sock' c' hc').imp_right fun hsending => ?_
    by_cases hx : c'.src = r
    · rw [hx, hphase] at hsending
      cases hsending
    · exact (update_of_ne hx _ _).trans hsending
  · rw [hw'] at hsock' ⊢
    exact h.fresh sock' hsock'
  · have hahead : w.ahead r = .recv c.src (.tag c.tag) next := by rw [World.ahead, hphase, hproc]
    have hcarries : ∀ p x t, w'.carries p x t = w.carries p x t := fun p x t => by
      rw [hw']
      rfl
    have hchan : ∀ p t, w.network.chans (p, r, .tag t) =
        (if c.src = p ∧ c.tag = t then [c.msg] else []) ++ w'.network.chans (p, r, .tag t) := by
      intro p t
      change (w.pending r).filterMap (w.carries p r t) = _ ++ (w'.pending r).filterMap (w'.carries p r t)
      rw [hcarries, hpending, filterMap_cons, World.carries, hc]
      dsimp only
      by_cases hkey : c.src = p ∧ c.tag = t
      · rw [if_pos hkey, if_pos ⟨hkey.1, hdst, hkey.2⟩]
        rfl
      · rw [if_neg hkey, if_neg fun hk => hkey ⟨hk.1, hk.2.2⟩]
        rfl
    have hhead := hchan c.src c.tag
    rw [if_pos ⟨rfl, rfl⟩] at hhead
    refine (Network.step_recv hahead hhead).trans (congrArg some (Network.ext (funext fun x => ?_) (funext ?_) ?_))
    · change update w.ahead r _ x = w'.ahead x
      by_cases hx : x = r
      · subst hx
        rw [update_self, ahead_idle hidle, hw']
        exact (update_self x (next c.msg) w.procs).symm
      · rw [update_of_ne hx, World.ahead, World.ahead, (hother x hx).1, (hother x hx).2.1]
    · rintro ⟨p, x, port⟩
      cases port with
      | ring =>
        refine (update_of_ne (by simp) _ _).trans ?_
        rw [hw']
        rfl
      | tag t =>
        by_cases hkey : (p, x, Port.tag t) = (c.src, r, Port.tag c.tag)
        · cases hkey
          exact update_self _ _ _
        · refine (update_of_ne hkey _ _).trans ?_
          by_cases hx : x = r
          · subst hx
            rw [hchan, if_neg]
            · rfl
            · rintro ⟨rfl, rfl⟩
              exact hkey rfl
          · change (w.pending x).filterMap _ = (w'.pending x).filterMap _
            rw [hpending' x hx, hcarries]
    · rw [hw']
      rfl

/-- **A step keeps the invariant**, and is a step of the channels or none. -/
theorem Inv.step (h : Inv w) {a : Nat × Nat} (hstep : w.step a = some w') : Follows w w' a.1 := by
  unfold World.step at hstep
  cases hphase : w.phase a.1 with
  | idle =>
    rw [hphase] at hstep
    dsimp only at hstep
    unfold World.call at hstep
    split at hstep
    · cases hstep
    · cases hstep
    · rename_i hproc
      obtain rfl := some.inj hstep
      exact h.note hphase hproc
    · rename_i hproc
      obtain rfl := some.inj hstep
      exact h.ringSend hphase hproc
    · rename_i hproc
      split at hstep
      · cases hstep
      · rename_i hring
        obtain rfl := some.inj hstep
        exact h.ringRecv hphase hproc hring
    · rename_i hproc
      obtain rfl := some.inj hstep
      exact h.connect hphase hproc
    · rename_i hproc
      split at hstep
      · rename_i hfound
        have hfollows := h.dequeue hphase hproc hfound
        rw [World.moved, update_eq_self] at hfollows
        rwa [← some.inj hstep]
      · rename_i hnone
        have hfollows := h.notFound hphase hproc hnone
        rw [World.moved, update_eq_self, update_eq_self] at hfollows
        rwa [← some.inj hstep]
  | sending sock =>
    rw [hphase] at hstep
    exact h.write hphase hstep
  | accepting =>
    rw [hphase] at hstep
    exact h.accept hphase hstep
  | accepted sock =>
    rw [hphase] at hstep
    exact h.identify hphase hstep
  | receiving sock =>
    rw [hphase] at hstep
    exact h.read hphase hstep

variable {as : List (Nat × Nat)}

theorem Inv.run (h : Inv w) (hexec : exec World.step w as = some w') :
    Inv w' ∧ ∃ bs, exec Network.step w.network bs = some w'.network := by
  induction as generalizing w with
  | nil =>
    cases hexec
    exact ⟨h, [], rfl⟩
  | cons a as ih =>
    obtain ⟨w₁, hstep, hexec⟩ := bind_eq_some_iff.1 hexec
    obtain ⟨hinv, hnetwork⟩ := h.step hstep
    obtain ⟨hinv', bs, hbs⟩ := ih hinv hexec
    refine ⟨hinv', ?_⟩
    rcases hnetwork with heq | hstep'
    · exact ⟨bs, by rwa [← heq]⟩
    · refine ⟨a.1 :: bs, ?_⟩
      rw [exec, hstep']
      exact hbs

theorem start_network (procs : Nat → Coll μ ν α) : (World.start procs).network = Network.start procs := by
  refine Network.ext rfl (funext ?_) rfl
  rintro ⟨p, x, port⟩
  cases port with
  | ring => rfl
  | tag t => rfl

/-- **A run of the ranks is a run of the channels.** -/
theorem run_network {procs : Nat → Coll μ ν α} (hexec : exec World.step (World.start procs) as = some w) :
    Inv w ∧ ∃ bs, exec Network.step (Network.start procs) bs = some w.network := by
  rw [← start_network]
  exact (Inv.start procs).run hexec

end Steps

end FlagCX.Bootstrap
