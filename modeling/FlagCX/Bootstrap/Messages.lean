import FlagCX.Bootstrap.Channels
import FlagCX.Lib.Lockstep

/-!
# Messages are received in the order in which they are sent

* `Serves` : a rank is brought further by its own steps and by those of senders that have made their connections.
* `Inv.served` : a receiver whose message was sent gets it, whatever else is parked or waits to be accepted.
* `messages_fifo` : the n-th receive for a rank and a tag returns the n-th message sent by that rank with that tag, and no
  connection is lost or received from twice.
* `connections_agree` : runs that have ended have ended alike, and so have the channels.
-/

namespace FlagCX.Bootstrap
open Lib Function List

section Served
variable {μ ν α : Type} {w w' w'' : World μ ν α} {r : Nat}

/-- `w'` is reached by steps of `r` and of ranks that write out the connections they have made. -/
structure Serves (w w' : World μ ν α) (r : Nat) : Prop where
  run : ∃ as, exec World.step w as = some w' ∧ ∀ a ∈ as, a.1 = r ∨ ∃ sock, w.phase a.1 = .sending sock
  conns : w'.conns = w.conns
  sending : ∀ x sock, w'.phase x = .sending sock → w.phase x = .sending sock

theorem Serves.refl (w : World μ ν α) (r : Nat) : Serves w w r := ⟨⟨[], rfl, fun _ h => by cases h⟩, rfl, fun _ _ h => h⟩

theorem Serves.trans (h : Serves w w' r) (h' : Serves w' w'' r) : Serves w w'' r := by
  obtain ⟨as, has, hlabels⟩ := h.run
  obtain ⟨bs, hbs, hlabels'⟩ := h'.run
  refine ⟨⟨as ++ bs, ?_, fun a ha => ?_⟩, h'.conns.trans h.conns, fun x sock hx => h.sending x sock (h'.sending x sock hx)⟩
  · rw [exec_append, has]
    exact hbs
  · rcases mem_append.1 ha with ha | ha
    · exact hlabels a ha
    · exact (hlabels' a ha).imp_right fun ⟨sock, hsock⟩ => ⟨sock, h.sending _ sock hsock⟩

theorem Serves.inv (h : Serves w w' r) (hinv : Inv w) : Inv w' := by
  obtain ⟨as, has, -⟩ := h.run
  exact (hinv.run has).1

theorem Serves.own {choice : Nat} (hstep : w.step (r, choice) = some w') (hconns : w'.conns = w.conns)
    (hother : ∀ x, x ≠ r → w'.phase x = w.phase x) (hself : ∀ sock, w'.phase r ≠ .sending sock) : Serves w w' r := by
  refine ⟨⟨[(r, choice)], by rw [exec_singleton]; exact hstep, fun a ha => ?_⟩, hconns, fun x sock hx => ?_⟩
  · rw [mem_singleton.1 ha]
    exact .inl rfl
  · by_cases hr : x = r
    · rw [hr] at hx
      exact absurd hx (hself sock)
    · rwa [← hother x hr]

theorem Serves.moves {phase : Phase} (hstep : w.step (r, 0) = some w') (hconns : w'.conns = w.conns)
    (hphase : w'.phase = update w.phase r phase) (hself : ∀ sock, phase ≠ .sending sock) : Serves w w' r := by
  refine .own hstep hconns (fun x hx => ?_) fun sock => ?_
  · rw [hphase, update_of_ne hx]
  · rw [hphase, update_self]
    exact hself sock

section Phases
variable {sock i : Nat}

theorem step_idle (h : w.phase r = .idle) : w.step (r, i) = w.call r := by simp only [World.step, h]

theorem step_sending (h : w.phase r = .sending sock) : w.step (r, i) = w.write r sock := by simp only [World.step, h]

theorem step_accepting (h : w.phase r = .accepting) : w.step (r, i) = w.accept r i := by simp only [World.step, h]

theorem step_accepted (h : w.phase r = .accepted sock) : w.step (r, i) = w.identify r sock := by simp only [World.step, h]

theorem step_receiving (h : w.phase r = .receiving sock) : w.step (r, i) = w.read r sock := by simp only [World.step, h]

end Phases

variable {sock : Nat}

theorem write_named {dst : Nat} {port : Port} {m : μ} {next : Coll μ ν α} (hstage : w.stage sock = .named)
    (hproc : w.procs r = .send dst port m next) :
    w.write r sock = some ({ w with stage := update w.stage sock .sent }.resume r next) := by
  rw [World.write, hstage, hproc]

theorem Inv.writeOut (h : Inv w) {c : Conn μ} (hc : w.conns[sock]? = some c)
    (hr : ∀ sock, w.phase r ≠ .sending sock) : ∃ w', Serves w w' r ∧ w'.stage sock = .sent ∧
      w'.phase r = w.phase r ∧ w'.procs r = w.procs r ∧ w'.listenSock = w.listenSock ∧
      w'.unexpectedConnections = w.unexpectedConnections ∧ w'.closed = w.closed := by
  rcases h.written sock c hc with hsent | hphase
  · exact ⟨w, .refl w r, hsent, rfl, rfl, rfl, rfl, rfl⟩
  · have hne : c.src ≠ r := fun heq => hr sock (by rw [← heq]; exact hphase)
    obtain ⟨c', next, hc', -, hproc, hnot⟩ := (h.rank c.src).writing sock hphase
    -- the data, once rank and tag are written
    have hdata : ∀ v : World μ ν α, v.phase = w.phase → v.procs = w.procs → v.stage sock = .named →
        v.step (c.src, 0) = some ({ v with stage := update v.stage sock .sent }.resume c.src next) := by
      intro v hvphase hvprocs hvstage
      rw [step_sending (by rw [hvphase, hphase])]
      exact write_named hvstage (by rw [hvprocs, hproc])
    have hresume : ∀ v : World μ ν α, v.conns = w.conns → v.phase = w.phase → v.procs = w.procs → v.stage sock = .named →
        v.listenSock = w.listenSock → v.unexpectedConnections = w.unexpectedConnections → v.closed = w.closed →
        ∃ w', Serves v w' r ∧ w'.stage sock = .sent ∧ w'.phase r = w.phase r ∧ w'.procs r = w.procs r ∧
          w'.listenSock = w.listenSock ∧ w'.unexpectedConnections = w.unexpectedConnections ∧ w'.closed = w.closed := by
      intro v hvconns hvphase hvprocs hvstage hvlisten hvunex hvclosed
      refine ⟨{ v with stage := update v.stage sock .sent }.resume c.src next,
        ⟨⟨[(c.src, 0)], by rw [exec_singleton]; exact hdata v hvphase hvprocs hvstage, fun a ha => ?_⟩, rfl,
        fun x sock' hx => ?_⟩, update_self _ _ _, ?_, ?_, hvlisten, hvunex, hvclosed⟩
      · rw [mem_singleton.1 ha]
        exact .inr ⟨sock, by rw [hvphase]; exact hphase⟩
      · by_cases hsrc : x = c.src
        · rw [hsrc] at hx
          cases (update_self _ _ _).symm.trans hx
        · exact (update_of_ne hsrc _ _).symm.trans hx
      · rw [← hvphase]
        exact update_of_ne hne.symm _ _
      · rw [← hvprocs]
        exact update_of_ne hne.symm _ _
    cases hstage : w.stage sock with
    | sent => exact absurd hstage hnot
    | named => exact hresume w rfl rfl rfl hstage rfl rfl rfl
    | opened =>
      obtain ⟨w', hserves, hrest⟩ := hresume { w with stage := update w.stage sock .named } rfl rfl rfl
        (update_self _ _ _) rfl rfl rfl
      have hnamed : Serves w { w with stage := update w.stage sock .named } r := by
        refine ⟨⟨[(c.src, 0)], ?_, fun a ha => ?_⟩, rfl, fun _ _ hx => hx⟩
        · rw [exec_singleton, step_sending hphase, World.write, hstage]
        · rw [mem_singleton.1 ha]
          exact .inr ⟨sock, hphase⟩
      exact ⟨w', hnamed.trans hserves, hrest⟩

/-- The receive of a rank is brought to its end with a connection of its key. -/
def Served (w : World μ ν α) (r src : Nat) (t : Int) (next : μ → Coll μ ν α) : Prop :=
  ∃ w' sock c, Serves w w' r ∧ w.conns[sock]? = some c ∧ c.src = src ∧ c.tag = t ∧ w'.procs r = next c.msg ∧
    w'.phase r = .idle ∧ w'.closed r = w.closed r ++ [sock]

/-- A connection with this key waits for the rank. -/
def Wanted (w : World μ ν α) (r src : Nat) (t : Int) : Prop :=
  (w.pending r).filter (fun sock => (w.carries src r t sock).isSome) ≠ []

variable {src : Nat} {t : Int} {next : μ → Coll μ ν α}

theorem Served.after (h : Served w' r src t next) (hserves : Serves w w' r) (hclosed : w'.closed r = w.closed r) :
    Served w r src t next := by
  obtain ⟨w'', sock, c, hserves', hc, hsrc, htag, hnext, hidle, hclosed'⟩ := h
  rw [hserves.conns] at hc
  rw [hclosed] at hclosed'
  exact ⟨w'', sock, c, hserves.trans hserves', hc, hsrc, htag, hnext, hidle, hclosed'⟩

theorem Wanted.after (h : Wanted w r src t) (hinv : Inv w) (hserves : Serves w w' r) (hclosed : w'.closed r = w.closed r) :
    Wanted w' r src t := by
  have hcarries : w'.carries src r t = w.carries src r t := by
    funext sock
    rw [World.carries, World.carries, hserves.conns]
  have horder := (hinv.rank r).order src t
  have horder' := ((hserves.inv hinv).rank r).order src t
  rw [hserves.conns, hcarries, horder, World.places, World.places, hclosed, filter_append, filter_append] at horder'
  unfold Wanted at *
  rwa [hcarries, ← append_cancel_left horder']

theorem Inv.finish (h : Inv w) (hphase : w.phase r = .receiving sock)
    (hproc : w.procs r = .recv src (.tag t) next) : Served w r src t next := by
  obtain ⟨c, next', hc, hproc'⟩ := (h.rank r).reading sock hphase
  rw [hproc] at hproc'
  cases hproc'
  obtain ⟨w₁, hserves, hsent, hphase₁, hproc₁, -, -, hclosed⟩ := h.writeOut hc (fun sock' => by rw [hphase]; simp)
  refine ⟨{ w₁ with closed := update w₁.closed r (w₁.closed r ++ [sock]) }.resume r (next c.msg), sock, c,
    hserves.trans (@Serves.own _ _ _ _ _ r 0 ?_ rfl (fun x hx => update_of_ne hx _ _) fun sock' => ?_), hc, rfl, rfl,
    update_self _ _ _, update_self _ _ _, ?_⟩
  · rw [step_receiving (hphase₁.trans hphase), World.read, hserves.conns, hc, hproc₁, hproc]
    exact if_pos hsent
  · intro heq
    cases (update_self _ _ _).symm.trans heq
  · rw [← hclosed]
    exact update_self _ _ _

theorem Inv.identified (h : Inv w) (hphase : w.phase r = .accepted sock)
    (hproc : w.procs r = .recv src (.tag t) next) : Served w r src t next ∨
      ∃ w', Serves w w' r ∧ w'.phase r = .accepting ∧ w'.procs r = w.procs r ∧ w'.listenSock r = w.listenSock r ∧
        w'.closed r = w.closed r := by
  obtain ⟨c, hc, -⟩ := (h.rank r).home sock (by simp [World.places, World.pending, held, hphase])
  obtain ⟨w₁, hserves, hsent, hphase₁, hproc₁, hlisten, -, hclosed⟩ := h.writeOut hc (fun sock' => by rw [hphase]; simp)
  have hopened : w₁.stage sock ≠ .opened := by
    rw [hsent]
    decide
  have hc₁ : w₁.conns[sock]? = some c := by
    rw [hserves.conns]
    exact hc
  have hstep : w₁.step (r, 0) = w₁.identify r sock := step_accepted (hphase₁.trans hphase)
  rw [World.identify, hc₁, hproc₁, hproc] at hstep
  dsimp only at hstep
  rw [if_neg hopened] at hstep
  by_cases hmatch : c.src = src ∧ c.tag = t
  · rw [if_pos hmatch] at hstep
    have hserves₁ : Serves w₁ _ r := Serves.moves hstep rfl rfl (by simp)
    have hinv := hserves₁.inv (hserves.inv h)
    exact .inl ((hinv.finish (update_self _ _ _) (hproc₁.trans hproc)).after (hserves.trans hserves₁) (by rw [← hclosed]))
  · rw [if_neg hmatch] at hstep
    have hserves₁ : Serves w₁ _ r := Serves.moves hstep rfl rfl (by simp)
    exact .inr ⟨_, hserves.trans hserves₁, update_self _ _ _, hproc₁, by rw [← hlisten], by rw [← hclosed]⟩

theorem Inv.accepted (h : Inv w) (hphase : w.phase r = .accepting) (hproc : w.procs r = .recv src (.tag t) next)
    (hwanted : Wanted w r src t) : Served w r src t next := by
  induction hlength : (w.listenSock r).length generalizing w with
  | zero =>
    -- everything that waits is parked, and is not what the rank waits for
    obtain ⟨src', t', next', hproc', hunmatched⟩ := (h.rank r).waiting (.inl hphase)
    rw [hproc] at hproc'
    cases hproc'
    refine absurd (filter_eq_nil_iff.2 fun sock hsock => ?_) hwanted
    rw [World.pending, hphase, eq_nil_of_length_eq_zero hlength] at hsock
    obtain ⟨u, hu, rfl⟩ := mem_map.1 (show sock ∈ (w.unexpectedConnections r).map UnexConn.sock by simpa [held] using hsock)
    obtain ⟨c, hc, hpeer, htag⟩ := (h.rank r).parked u hu
    intro hcarries
    obtain ⟨hsrc, -, ht⟩ := (carries_isSome hc).1 hcarries
    exact hunmatched u hu ⟨hpeer.symm.trans hsrc, htag.symm.trans ht⟩
  | succ k ih =>
    obtain ⟨sock, rest, hlisten⟩ : ∃ sock rest, w.listenSock r = sock :: rest := by
      cases hl : w.listenSock r with
      | nil =>
        rw [hl] at hlength
        cases hlength
      | cons sock rest => exact ⟨sock, rest, rfl⟩
    have hstep : w.step (r, 0) = some { w with
        phase := update w.phase r (.accepted sock), listenSock := update w.listenSock r rest } := by
      rw [step_accepting hphase, World.accept, hlisten]
      rfl
    have hserves : Serves w _ r := Serves.moves hstep rfl rfl (by simp)
    have hinv := hserves.inv h
    have hwanted₁ := hwanted.after h hserves rfl
    rcases hinv.identified (update_self _ _ _) hproc with hserved | ⟨w₂, hserves₂, hphase₂, hproc₂, hlisten₂, hclosed₂⟩
    · exact hserved.after hserves rfl
    · refine (ih (hserves₂.inv hinv) hphase₂ (hproc₂.trans hproc) (hwanted₁.after hinv hserves₂ hclosed₂) ?_).after
        (hserves.trans hserves₂) (by rw [hclosed₂])
      rw [hlisten₂, show World.listenSock _ r = rest from update_self _ _ _]
      rw [hlisten] at hlength
      exact Nat.succ.inj hlength

/-- **A receive whose message was sent comes to its end**, by steps of the rank and of senders that write. -/
theorem Inv.served (h : Inv w) (hproc : w.procs r = .recv src (.tag t) next) (hwanted : Wanted w r src t) :
    Served w r src t next := by
  cases hphase : w.phase r with
  | sending sock =>
    obtain ⟨c, next', hc, -, hproc', -⟩ := (h.rank r).writing sock hphase
    rw [hproc] at hproc'
    cases hproc'
  | receiving sock => exact h.finish hphase hproc
  | accepting => exact h.accepted hphase hproc hwanted
  | accepted sock =>
    rcases h.identified hphase hproc with hserved | ⟨w', hserves, hphase', hproc', hlisten, hclosed⟩
    · exact hserved
    · exact ((hserves.inv h).accepted hphase' (hproc'.trans hproc) (hwanted.after h hserves hclosed)).after hserves hclosed
  | idle =>
    have hstep : w.step (r, 0) = w.call r := step_idle hphase
    rw [World.call, hproc] at hstep
    dsimp only at hstep
    split at hstep
    · rename_i sock rest _
      have hserves : Serves w _ r := Serves.moves hstep rfl rfl nofun
      exact ((hserves.inv h).finish (update_self _ _ _) hproc).after hserves rfl
    · have hserves : Serves w _ r := Serves.moves hstep rfl rfl nofun
      exact ((hserves.inv h).accepted (update_self _ _ _) hproc (hwanted.after h hserves rfl)).after hserves rfl

end Served

/-! ## First in, first out -/

/-- What the messages of a run are due.

* `matching` : what the receives for a rank and a tag have returned is what that rank has sent with that tag, in order;
* `once` : a connection is received from, in use, parked, or not accepted yet, and it is only one of these;
* `unblocked` : a receive whose message was sent returns it after steps of the receiver, and of senders that write what they
  have connected for. -/
structure Orderly {μ ν α : Type} (w : World μ ν α) : Prop where
  matching : ∀ (p r : Nat) (t : Int) (n : Nat) (m : μ), (w.received p r t)[n]? = some m → (w.sent p r t)[n]? = some m
  once : ∀ r, (w.closed r ++ w.pending r).Nodup ∧
    ∀ sock, sock ∈ w.closed r ++ w.pending r ↔ ∃ c, w.conns[sock]? = some c ∧ c.dst = r
  unblocked : ∀ r p t next m, w.procs r = .recv p (.tag t) next → (w.sent p r t)[(w.received p r t).length]? = some m →
    ∃ w', Serves w w' r ∧ w'.procs r = next m ∧ w'.phase r = .idle ∧ w'.received p r t = w.received p r t ++ [m]

section Orderly
variable {μ ν α : Type} {w : World μ ν α} {p r : Nat} {t : Int}

theorem Inv.sent_eq (h : Inv w) (p r : Nat) (t : Int) :
    w.sent p r t = w.received p r t ++ (w.pending r).filterMap (w.carries p r t) := by
  rw [World.sent, World.received, ← filterMap_append, ← filterMap_filter, (h.rank r).order, filterMap_filter]
  rfl

theorem Inv.once (h : Inv w) (r : Nat) : (w.places r).Nodup ∧
    ∀ sock, sock ∈ w.places r ↔ ∃ c, w.conns[sock]? = some c ∧ c.dst = r := by
  have hkey : ∀ {sock : Nat} {c : Conn μ}, w.conns[sock]? = some c → c.dst = r →
      (w.carries c.src r c.tag sock).isSome = true := fun hc hdst => (carries_isSome hc).2 ⟨rfl, hdst, rfl⟩
  refine ⟨nodup_iff_count_le_one.2 fun sock => ?_, fun sock => ⟨(h.rank r).home sock, fun ⟨c, hc, hdst⟩ => ?_⟩⟩
  · by_cases hmem : sock ∈ w.places r
    · obtain ⟨c, hc, hdst⟩ := (h.rank r).home sock hmem
      have hcount := count_filter (l := w.places r) (p := fun sock => (w.carries c.src r c.tag sock).isSome) (hkey hc hdst)
      rw [← hcount, ← (h.rank r).order]
      exact nodup_iff_count_le_one.1 (nodup_range.filter _) sock
    · rw [count_eq_zero_of_not_mem hmem]
      exact Nat.zero_le 1
  · have hrange : sock ∈ List.range w.conns.length := mem_range.2 (List.getElem?_eq_some_iff.1 hc).1
    have hfilter : sock ∈ (List.range w.conns.length).filter fun sock => (w.carries c.src r c.tag sock).isSome :=
      mem_filter.2 ⟨hrange, hkey hc hdst⟩
    rw [(h.rank r).order] at hfilter
    exact (mem_filter.1 hfilter).1

theorem Inv.orderly (h : Inv w) : Orderly w where
  matching p r t n m hm := by
    obtain ⟨hlt, -⟩ := List.getElem?_eq_some_iff.1 hm
    rw [h.sent_eq, getElem?_append_left hlt]
    exact hm
  once := h.once
  unblocked r p t next m hproc hm := by
    have hwanted : Wanted w r p t := by
      intro hnil
      rw [h.sent_eq, ← filterMap_filter, hnil, getElem?_append_right (le_rfl)] at hm
      cases hm
    obtain ⟨w', sock, c, hserves, hc, hsrc, htag, hnext, hidle, hclosed⟩ := h.served hproc hwanted
    have hinv := hserves.inv h
    have hc' : w'.conns[sock]? = some c := by
      rw [hserves.conns]
      exact hc
    have hcarries : ∀ sock', w'.carries p r t sock' = w.carries p r t sock' := fun sock' => by
      rw [World.carries, World.carries, hserves.conns]
    obtain ⟨c', hc'', hdst⟩ := (hinv.rank r).home sock (by
      rw [World.places, hclosed]
      simp)
    rw [hc'] at hc''
    cases hc''
    have hreceived : w'.received p r t = w.received p r t ++ [c.msg] := by
      rw [World.received, World.received, hclosed, filterMap_append, filterMap_cons, World.carries, hc']
      dsimp only
      rw [if_pos ⟨hsrc, hdst, htag⟩, filterMap_congr fun sock' _ => hcarries sock']
      rfl
    -- the message is the next one, since what is received is what was sent
    have hsent : w'.sent p r t = w.sent p r t := by
      rw [World.sent, World.sent, hserves.conns, filterMap_congr fun sock' _ => hcarries sock']
    have hnext' := hinv.sent_eq p r t
    rw [hsent, hreceived] at hnext'
    rw [hnext', append_assoc, getElem?_append_right (Nat.le_refl _), Nat.sub_self] at hm
    cases hm
    exact ⟨w', hserves, hnext, hidle, hreceived⟩

end Orderly

/-- **Messages are matched first in, first out, for each peer and tag**, whatever the ranks send and receive and however their
steps are interleaved. -/
theorem messages_fifo {μ ν α : Type} (procs : Nat → Coll μ ν α) {as : List (Nat × Nat)} {w : World μ ν α}
    (hexec : exec World.step (World.start procs) as = some w) : Orderly w :=
  ((Inv.start procs).run hexec).1.orderly

/-- Rank 0 sends with the tags 5, 6 and 5 again; rank 1 receives with the tag 6 first. -/
def parking : Nat → Coll Nat Unit (List Nat)
  | 0 => .send 1 (.tag 5) 10 (.send 1 (.tag 6) 11 (.send 1 (.tag 5) 12 (.done [])))
  | 1 => .recv 0 (.tag 6) fun a => .recv 0 (.tag 5) fun b => .recv 0 (.tag 5) fun c => .done [a, b, c]
  | _ => .done []

/-- The first connection is parked, and the receives with its tag come to it and to the third, in this order. -/
theorem messages_fifo_parking : ∃ w, exec World.step (World.start parking)
    (((replicate 9 0) ++ (replicate 12 1)).map fun r => (r, 0)) = some w ∧ w.received 0 1 5 = [10, 12] ∧ Orderly w := by
  have hrun : (exec World.step (World.start parking)
      (((replicate 9 0) ++ (replicate 12 1)).map fun r => (r, 0))).map (fun w => w.received 0 1 5) =
        some [10, 12] := by
    decide +kernel
  obtain ⟨w, hw, hreceived⟩ := Option.map_eq_some_iff.1 hrun
  exact ⟨w, hw, hreceived, messages_fifo parking hw⟩

/-! ## The order of the steps -/

section Stopped
variable {μ ν α : Type} {w w' : World μ ν α} {r : Nat}

theorem Inv.not_sending (h : Inv w) (hstop : Stopped World.step w) (sock : Nat) : w.phase r ≠ .sending sock := by
  intro hphase
  obtain ⟨c, next, -, -, hproc, hnot⟩ := (h.rank r).writing sock hphase
  have hstep := (step_sending (i := 0) hphase).symm.trans (hstop (r, 0))
  cases hstage : w.stage sock with
  | sent => exact hnot hstage
  | named => simp [write_named hstage hproc] at hstep
  | opened => simp [World.write, hstage] at hstep

/-- **Ranks that cannot go on over their connections cannot go on over the channels either.** -/
theorem Inv.stopped (h : Inv w) (hstop : Stopped World.step w) :
    w.network.procs = w.procs ∧ Stopped Network.step w.network := by
  have hahead : w.network.procs = w.procs := by
    funext r
    change w.ahead r = w.procs r
    unfold World.ahead
    split
    · rename_i hphase _
      exact absurd hphase (h.not_sending hstop _)
    · rfl
  -- a rank that is not at the beginning of a call waits for a message with a tag
  have hidle : ∀ r, (∀ src t next, w.procs r ≠ .recv src (.tag t) next) → w.call r = none := by
    intro r hno
    cases hphase : w.phase r with
    | idle => exact (step_idle hphase).symm.trans (hstop (r, 0))
    | sending sock => exact absurd hphase (h.not_sending hstop sock)
    | accepting =>
      obtain ⟨src, t, next, hproc, -⟩ := (h.rank r).waiting (.inl hphase)
      exact absurd hproc (hno src t next)
    | accepted sock =>
      obtain ⟨src, t, next, hproc, -⟩ := (h.rank r).waiting (.inr ⟨sock, hphase⟩)
      exact absurd hproc (hno src t next)
    | receiving sock =>
      obtain ⟨c, next, -, hproc⟩ := (h.rank r).reading sock hphase
      exact absurd hproc (hno _ _ next)
  refine ⟨hahead, fun r => Option.eq_none_iff_forall_ne_some.2 fun n' hstep => ?_⟩
  rcases Network.step_cases hstep with ⟨v, next, hproc, -⟩ | ⟨dst, port, m, next, hproc, -⟩ |
    ⟨src, port, next, m, rest, hproc, hchan, -⟩ <;> rw [hahead] at hproc
  · simpa [World.call, hproc] using hidle r (by simp [hproc])
  · have hcall := hidle r (by simp [hproc])
    cases port <;> simp [World.call, hproc] at hcall
  · cases port with
    | ring =>
      have hring : w.rings (src, r) = m :: rest := hchan
      simpa [World.call, hproc, hring] using hidle r (by simp [hproc])
    | tag t =>
      have hwanted : Wanted w r src t := by
        intro hnil
        have hchan : (w.pending r).filterMap (w.carries src r t) = m :: rest := hchan
        rw [← filterMap_filter, hnil] at hchan
        cases hchan
      obtain ⟨w', sock, c, hserves, -, -, -, -, -, hclosed⟩ := h.served hproc hwanted
      obtain ⟨as, has, -⟩ := hserves.run
      cases as with
      | nil =>
        obtain rfl := Option.some.inj has
        exact absurd hclosed (by simp)
      | cons a as =>
        rw [exec, hstop] at has
        cases has

end Stopped

/-- **The order of the steps does not matter.** All runs of the ranks over their connections that have come to an end have come
to the same one, where the channels have ended too; so what holds wherever the channels end holds there. -/
theorem connections_agree {μ ν α : Type} (procs : Nat → Coll μ ν α) {as as' : List (Nat × Nat)} {w w' : World μ ν α}
    (hexec : exec World.step (World.start procs) as = some w) (hstop : Stopped World.step w)
    (hexec' : exec World.step (World.start procs) as' = some w') (hstop' : Stopped World.step w') :
    w'.procs = w.procs ∧ w'.notes = w.notes ∧ Stopped Network.step w.network ∧
      ∀ Q, (Network.start procs).Settles Q → Q w.network := by
  obtain ⟨h, bs, hbs⟩ := run_network hexec
  obtain ⟨h', bs', hbs'⟩ := run_network hexec'
  obtain ⟨hprocs, hstopped⟩ := h.stopped hstop
  obtain ⟨hprocs', hstopped'⟩ := h'.stopped hstop'
  have heq := Network.commutes.unique hbs hstopped hbs' hstopped'
  refine ⟨?_, congrArg Network.notes heq, hstopped, fun Q hQ => hQ.ends bs _ hbs hstopped⟩
  rw [← hprocs, ← hprocs', heq]

/-- Rank 1 begins after rank 0 has sent, or before. -/
theorem connections_agree_parking : ∃ w w', exec World.step (World.start parking)
      ((replicate 9 0 ++ replicate 12 1).map fun r => (r, 0)) = some w ∧
    exec World.step (World.start parking) ((1 :: replicate 9 0 ++ replicate 11 1).map fun r => (r, 0)) = some w' ∧
    w'.procs = w.procs := by
  have hends : ∀ l ∈ [replicate 9 0 ++ replicate 12 1, 1 :: replicate 9 0 ++ replicate 11 1], ∃ w,
      exec World.step (World.start parking) (l.map fun r => (r, 0)) = some w ∧ Stopped World.step w := by
    intro l hl
    rcases mem_pair.1 hl with rfl | rfl <;> exact ⟨_, rfl, by rintro ⟨_ | _ | r, i⟩ <;> rfl⟩
  obtain ⟨w, hexec, hstop⟩ := hends _ (mem_cons_self ..)
  obtain ⟨w', hexec', hstop'⟩ := hends _ (mem_cons_of_mem _ (mem_singleton_self _))
  exact ⟨w, w', hexec, hexec', (connections_agree parking hexec hstop hexec' hstop').1⟩

end FlagCX.Bootstrap
