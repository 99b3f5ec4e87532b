import FlagCX.Rma.Groups
import FlagCX.Rma.RingSafety

/-!
# An RMA enqueue is all or nothing (`flagcx_hetero.cc`)

* `Blank` : a free entry of a scoreboard holds nothing, so a cancelled submission leaves no trace
  (`trackCancel_trackSubmit`, `cancelAll_submitAll`). Every run keeps it.
* `attempt` : one pass of the loop of an enqueue function. `Called` : a call, with the steps of the others between passes.
-/

namespace FlagCX.Rma
open List Function Option

open Net Lib CompletionScoreboard

variable {n : Nat} {c : Config n} {p : Fin n} {f f' : Fabric (Fin n)} {e : Enqueue}

/-! ## A cancelled submission leaves no trace -/

section Scoreboards
variable {sb sb' : CompletionScoreboard} {context : SubmitContext} {g : Option Nat} {t : Tracker}

/-- A free entry is as `flagcxNetCompletionEntryReset` leaves it. -/
def BlankBoard (sb : CompletionScoreboard) : Prop := ∀ k, (sb.entries k).state = .free → sb.entries k = completionEntryReset

theorem BlankBoard.write (h : BlankBoard sb) {k : Nat} {entry : CompletionEntry}
    (hent : sb'.entries = update sb.entries k entry) (he : entry.state = .free → entry = completionEntryReset) :
    BlankBoard sb' := by
  intro j hj
  rw [hent, update_apply] at hj ⊢
  split_ifs at hj ⊢
  · exact he hj
  · exact h j hj

theorem BlankBoard.retire (h : BlankBoard sb) (k advanced : Nat) : BlankBoard (sb.retire k advanced).1 := by
  induction k generalizing sb advanced with
  | zero => exact h
  | succ k ih =>
    unfold CompletionScoreboard.retire
    split_ifs
    · exact ih (h.write rfl fun _ => rfl) _
    · exact h

theorem dropEntry_submitEntry (h : BlankBoard sb) (hfree : (sb.entryAt context.sequence).state = .free) :
    (sb.submitEntry context g).dropEntry context.sequence = sb := by
  have hback : update sb.entries (sb.slot context.sequence) completionEntryReset = sb.entries := by
    rw [← h _ hfree]
    exact update_eq_self ..
  have hslot : (sb.submitEntry context g).slot context.sequence = sb.slot context.sequence := rfl
  unfold dropEntry setEntry
  rw [hslot]
  simp only [submitEntry, setEntry, update_idem, Nat.add_sub_cancel, hback]

/-- A group that was tracked is given back its counts, which did not wrap. -/
theorem trackCancel_trackSubmit (h : BlankBoard t.scoreboard) (hs : (trackSubmit t context g).1 = .success) :
    (trackCancel (trackSubmit t context g).2 context).2 = t := by
  have hg := fun p => trackSubmit_group (p := p) hs
  rcases trackSubmit_cases t context g with ⟨hf, -⟩ | ⟨-, -, hgen, hlow, hhigh, hfree, hsb⟩
  · exact absurd hs hf
  obtain ⟨sb, groups⟩ := t
  generalize (trackSubmit ⟨sb, groups⟩ context g).2 = out at hsb hg
  obtain ⟨sb', groups'⟩ := out
  obtain rfl : sb' = sb.submitEntry context g := hsb
  have hentry : (sb.submitEntry context g).entryAt context.sequence = ⟨context, g, .success, .pending⟩ := update_self ..
  have hnames : namesPending (sb.submitEntry context g) context := by
    refine ⟨fun hz => ?_, hgen, hlow, hhigh, by rw [hentry], by simp [hentry, submitContextMatches]⟩
    have hcap : sb.capacity = 0 := hz
    rw [hcap] at hhigh
    exact Nat.not_lt_zero _ hhigh
  have hback := dropEntry_submitEntry (g := g) h hfree
  unfold trackCancel
  rw [if_neg (not_not.2 hnames), hentry]
  cases g with
  | none =>
    have hsame : groups' = groups := funext fun p => by simpa using hg p
    show Tracker.mk _ groups' = _
    rw [hback, hsame]
  | some p =>
    obtain ⟨htracked, hp⟩ := if_pos rfl ▸ hg p
    have hrest : ∀ q, q ≠ p → groups' q = groups q := fun q hq => by simpa [Ne.symm hq] using hg q
    unfold releaseGroupTrackLocked at htracked hp
    split_ifs at htracked hp with hc
    push Not at hc
    have hpos : ∀ {a : UInt32}, a ≠ uint32Max → a + 1 ≠ 0 := by
      intro a ha hz
      have := toNat_succ ha
      rw [hz] at this
      exact absurd this (by simp)
    have hopen : (groups p).state = .opened := hc.1
    dsimp only at hp ⊢
    rw [hp, if_neg (by simp [hopen, hpos hc.2.2.2.1, hpos hc.2.2.2.2]), hback]
    refine congrArg (Tracker.mk sb) (funext fun q => ?_)
    by_cases hq : q = p
    · subst hq
      simp
    · rw [update_of_ne hq, hrest q hq]

end Scoreboards

def Blank (f : Fabric (Fin n)) : Prop := ∀ i, BlankBoard (f.boards i)

theorem Blank.onBoard (h : Blank f) {out : Tracker} (hb : BlankBoard out.scoreboard) : Blank (f.onBoard p out) := by
  intro q
  rcases eq_or_ne q p with rfl | hq
  · rw [onBoard_self]
    exact hb
  · rw [onBoard_ne hq]
    exact h q

theorem blank_kept : Kept (n := n) Blank := by
  intro f k _ h
  cases k with
  | submit i context g =>
    refine h.onBoard ?_
    rcases trackSubmit_cases ⟨f.boards i, f.groups⟩ context g with ⟨-, he⟩ | ⟨-, -, -, -, -, -, he⟩ <;> rw [he]
    · exact h i
    · exact (h i).write rfl nofun
  | cancel i context =>
    refine h.onBoard ?_
    rcases trackCancel_cases ⟨f.boards i, f.groups⟩ context with ⟨-, he⟩ | ⟨-, -, he⟩ <;> rw [he]
    · exact h i
    · exact (h i).write rfl fun _ => rfl
  | completion i context result =>
    refine h.onBoard ?_
    rcases trackCompletion_cases ⟨f.boards i, f.groups⟩ context result with ⟨-, he⟩ | ⟨he, -⟩ | ⟨-, -, -, -, he⟩ <;>
      rw [he]
    · exact h i
    · exact h i
    · have hdone : BlankBoard ((f.boards i).completeEntry context.sequence result) := (h i).write rfl nofun
      exact hdone.retire _ _
  | groupSeal | groupTest | groupReset => exact h

theorem Reachable.blank {ok : Run n → Action n → Prop} {r : Run n} (h : Reachable c ok r) : Blank r.proxy.fabric := by
  refine h.keeps (I := fun x _ => Blank x.fabric) (fun board groups hinit => ?_) fun x a y log ns hI hmove _ => ?_
  · unfold CompletionScoreboard.init at hinit
    split_ifs at hinit
    cases hinit
    exact fun _ _ _ => rfl
  · cases hmove with
    | publish p e f f' hlock hsubmit hseal => exact blank_kept.sealed (blank_kept.submitAll hI hsubmit) hseal
    | unpublish p e k f hlock hsubmit => exact blank_kept.cancelAll (blank_kept.submitAll hI hsubmit)
    | retire p i d result => exact blank_kept _ (.completion p d.submitContext result) trivial hI
    | settle p d result => exact blank_kept _ (.completion p d.submitContext result) trivial hI
    | _ => exact hI

variable {ds : List Submission}

theorem cancelAll_submitAll (h : Blank f) (hs : submitAll p f ds = some f') : cancelAll p f' ds = f := by
  induction ds generalizing f with
  | nil => exact (some.inj hs).symm
  | cons d ds ih =>
    unfold submitAll at hs
    dsimp only at hs
    split_ifs at hs with hd
    rw [cancelAll, ih (blank_kept _ (.submit p d.submitContext d.trackedGroup) trivial h) hs]
    have hback : (trackCancel (trackSubmit ⟨f.boards p, f.groups⟩ d.submitContext d.trackedGroup).2 d.submitContext).2 =
        ⟨f.boards p, f.groups⟩ := trackCancel_trackSubmit (h p) hd
    simp only [Fabric.call, Fabric.onBoard, update_self, hback, update_idem, update_eq_self]

/-! ## What is published -/

theorem submitAll_group (hs : submitAll p f ds = some f') (g : Nat) :
    (f'.groups g).pending.toNat = (f.groups g).pending.toNat + ds.countP (·.trackedGroup = some g) ∧
      (f'.groups g).members.toNat = (f.groups g).members.toNat + ds.countP (·.trackedGroup = some g) := by
  induction ds generalizing f with
  | nil =>
    cases hs
    exact ⟨rfl, rfl⟩
  | cons d ds ih =>
    unfold submitAll at hs
    dsimp only at hs
    split_ifs at hs with hd
    obtain ⟨hpending, hmembers⟩ := ih hs
    have hone := trackSubmit_group (p := g) hd
    rw [hpending, hmembers, countP_cons]
    by_cases hm : d.trackedGroup = some g
    · rw [if_pos hm] at hone
      obtain ⟨htracked, hgroup⟩ := hone
      unfold releaseGroupTrackLocked at htracked hgroup
      split_ifs at htracked hgroup with hc
      push Not at hc
      have hcounts : ((f.call (.submit p d.submitContext d.trackedGroup)).2.groups g).pending = (f.groups g).pending + 1 ∧
          ((f.call (.submit p d.submitContext d.trackedGroup)).2.groups g).members = (f.groups g).members + 1 :=
        ⟨congrArg ReleaseGroup.pending hgroup, congrArg ReleaseGroup.members hgroup⟩
      rw [hcounts.1, hcounts.2, toNat_succ hc.2.2.2.1, toNat_succ hc.2.2.2.2]
      simp only [hm, decide_true, if_true]
      omega
    · rw [if_neg hm] at hone
      have hsame : (f.call (.submit p d.submitContext d.trackedGroup)).2.groups g = f.groups g := hone
      simp [hsame, hm]

/-- The release observes its group; every data descriptor of an entry point is a member. -/
theorem ApiCall.members (call : ApiCall) (g : Nat) (gid : UInt64) {data : List Desc} {release : Desc} {ready : Bool}
    (h : call.enqueue g gid = .releaseGroup data release ready) :
    release.releaseGroup = some g ∧ (data ++ [release]).countP (·.trackedGroup = some g) = data.length := by
  have hdata : ∀ x key b, (signalDataDesc g gid x key b).trackedGroup = some g := fun _ _ b => if_pos (isData_independence b).1
  have hrelease : ∀ off value key b, (signalReleaseDesc g gid off value key b).trackedGroup = none :=
    fun _ _ _ b => if_neg (ne_true_of_eq_false (isData_independence b).2.2.1)
  cases call with
  | putSignal x off value ready key independent =>
    cases h
    refine ⟨rfl, ?_⟩
    split_ifs <;> simp [hdata, hrelease]
  | batchPutSignal xs off value key independent =>
    cases h
    refine ⟨rfl, ?_⟩
    simp [hrelease, countP_map, Function.comp_def, hdata]
  | _ => cases h

/-- Every descriptor stands in its slot with its sequence, both indices are past them, and a group is sealed (or, without
members, complete) with its data members counted. -/
structure Enqueued (c : Config n) (x y : Core n) (p : Fin n) (e : Enqueue) : Prop where
  sequence : (y.peers p).opSeq = (x.peers p).opSeq + UInt64.ofNat e.descs.length
  producer : (y.peers p).pi = (x.peers p).pi + UInt32.ofNat e.descs.length
  slots : ∀ k d, e.descs[k]? = some d → (y.peers p).slots (c.slot ((x.peers p).pi + UInt32.ofNat k)) =
    prepared ((x.peers p).opSeq + UInt64.ofNat (k + 1)) d
  group : ∀ g, e.group = some g →
    (y.fabric.groups g).state = (if (y.fabric.groups g).pending = 0 then .complete else .sealed) ∧
      (y.fabric.groups g).pending.toNat =
        (x.fabric.groups g).pending.toNat + e.descs.countP (·.trackedGroup = some g) ∧
      (y.fabric.groups g).members.toNat =
        (x.fabric.groups g).members.toNat + e.descs.countP (·.trackedGroup = some g)

theorem fill_slot (c : Config n) (slots : Nat → Desc) (pi : UInt32) {ds : List Desc} (hlen : ds.length ≤ c.queueSize.toNat)
    {k : Nat} {d : Desc} (hk : ds[k]? = some d) : fill c.queueMask slots pi ds (c.slot (pi + UInt32.ofNat k)) = d := by
  -- a ring from which everything before `pi` was taken
  have hempty : Ring c.bits slots pi pi (replicate pi.toNat Desc.zero) pi.toNat := by
    have hmod : pi.toNat = pi.toNat % 2 ^ 32 := (Nat.mod_eq_of_lt pi.toNat_lt).symm
    refine ⟨by rwa [length_replicate], hmod, by simp, by simp, fun m v hm hv => ?_⟩
    have := (List.getElem?_eq_some_iff.1 hv).1
    rw [length_replicate] at this
    omega
  have hroom : (replicate pi.toNat Desc.zero).length + ds.length ≤ pi.toNat + 2 ^ c.bits := by
    rw [length_replicate, ← c.size_eq]
    omega
  have hlt := (List.getElem?_eq_some_iff.1 hk).1
  have hat := (hempty.append c.bits_lt' c.mask_eq ds hroom).slot_at c.bits_lt' c.mask_eq (k := k)
    (by rw [length_append, length_replicate]; omega)
  rw [getElem?_append_right (by simp), length_replicate, Nat.add_sub_cancel_left, hk] at hat
  exact (some.inj hat).symm

theorem publish_enqueued {x : Core n} (hfits : e.descs.length ≤ c.queueSize.toNat)
    (hsubmit : submitAll p x.fabric ((number (x.peers p).opSeq e.descs).map (·.toSubmission)) = some f)
    (hseal : sealed? f e.group = some f') :
    Enqueued c x { x.setPeer p ((x.peers p).publish c e) with fabric := f' } p e := by
  refine ⟨?_, ?_, fun k d hk => ?_, fun g hg => ?_⟩
  · rw [Core.setPeer_self]
    rfl
  · rw [Core.setPeer_self]
    rfl
  · rw [Core.setPeer_self]
    refine fill_slot c _ _ (by rwa [number_length]) ?_
    rw [number_getElem?, hk]
    rfl
  · obtain ⟨hpending, hmembers⟩ := submitAll_group hsubmit g
    have hcount : ∀ base, ((number base e.descs).map (·.toSubmission)).countP (·.trackedGroup = some g) =
        e.descs.countP (·.trackedGroup = some g) := by
      intro base
      induction e.descs generalizing base with
      | nil => rfl
      | cons d ds ih =>
        rw [number, map_cons, countP_cons, ih, countP_cons]
        rfl
    rw [hcount] at hpending hmembers
    rw [hg] at hseal
    unfold sealed? at hseal
    dsimp only at hseal
    split_ifs at hseal with hs
    cases hseal
    have hgroup : (f.call (.groupSeal g)).2.groups g = (releaseGroupSeal (f.groups g)).2 := update_self ..
    have hseal : (releaseGroupSeal (f.groups g)).1 = .success := hs
    show (((f.call (.groupSeal g)).2.groups g).state = _) ∧ _
    rw [hgroup, ← hpending, ← hmembers]
    unfold releaseGroupSeal at hseal ⊢
    split_ifs at hseal ⊢ with h0 h1 h2 <;> simp_all

/-! ## Calls -/

/-- One pass of the loop of an enqueue function; `flagcxInProgress` stands for another one. -/
def attempt (c : Config n) (s : Proxy n) (p : Fin n) (e : Enqueue) : Result × Proxy n :=
  match s.refusal e with
  | some result => (result, s)
  | none =>
    if hasSpace c (s.peers p) e then
      match publish c (s.setPeer p { s.peers p with lock := .admitted e }) p with
      | some out => (out.1, out.2.1)
      | none => (.internalError, s)
    else (.inProgress, s)

/-- A call with its result and the state it leaves. The mutex is free at every pass; between two passes it is given up, and
the run goes on. -/
inductive Called (c : Config n) (ok : Run n → Action n → Prop) (p : Fin n) (e : Enqueue) : Run n → Result → Proxy n → Prop
  | refused (r : Run n) (hfits : e.fits c = false) :
      Called c ok p e r (if e.descs = [] then .success else .invalidArgument) r.proxy
  | done (r : Run n) (hfits : e.fits c = true) (hfree : (r.proxy.peers p).lock = .free)
      (hresult : (attempt c r.proxy p e).1 ≠ .inProgress) :
      Called c ok p e r (attempt c r.proxy p e).1 (attempt c r.proxy p e).2
  | retry (r r' : Run n) (result : Result) (s : Proxy n) (hfits : e.fits c = true) (hfree : (r.proxy.peers p).lock = .free)
      (hresult : (attempt c r.proxy p e).1 = .inProgress)
      (hothers : Reach (step c) ok ⟨(attempt c r.proxy p e).2, r.log⟩ r') (hcall : Called c ok p e r' result s) :
      Called c ok p e r result s

variable {s : Proxy n}

theorem publish_notes (hlock : (s.peers p).lock = .admitted e) : ∃ out, publish c s p = some out ∧
    (out.1 = .success ∧ out.2.2.length = e.descs.length ∨ out.1 ≠ .success ∧ out.2.2 = []) := by
  have hprep : ∀ ds, (prepareDescs p s ds).1 = .success → (prepareDescs p s ds).2.2.length = ds.length := by
    intro ds hs
    obtain ⟨k, f, hout, -, -, -, hall⟩ := prepareDescs_core ds s p
    rw [hout, hall.1 hs, length_take, number_length, Nat.min_self]
  have hundo : ∀ {a b : Result}, b ≠ .success → (if a ≠ .success then a else b) ≠ .success := by
    intro a b hb
    split_ifs with ha
    · exact ha
    · exact hb
  unfold publish
  rw [hlock]
  cases e with
  | desc d _ | ipcGet d =>
    dsimp only
    by_cases hs : (prepareDescs p s [d]).1 = .success
    · rw [if_neg (not_not.2 hs)]
      exact ⟨_, rfl, .inl ⟨rfl, (length_map _).trans (hprep _ hs)⟩⟩
    · rw [if_pos hs]
      exact ⟨_, rfl, .inr ⟨hs, rfl⟩⟩
  | batch ds =>
    dsimp only
    by_cases hs : (prepareDescs p s ds).1 = .success
    · rw [if_neg (not_not.2 hs)]
      exact ⟨_, rfl, .inl ⟨rfl, (length_map _).trans (hprep _ hs)⟩⟩
    · rw [if_pos hs]
      exact ⟨_, rfl, .inr ⟨hundo hs, rfl⟩⟩
  | releaseGroup data release ready =>
    dsimp only
    by_cases hs : (prepareDescs p s (data ++ [release])).1 = .success
    swap
    · rw [if_pos hs]
      exact ⟨_, rfl, .inr ⟨hundo hs, rfl⟩⟩
    rw [if_neg (not_not.2 hs)]
    by_cases hseal : (sealGroup (prepareDescs p s (data ++ [release])).2.1 release.releaseGroup).1 = .success
    · rw [if_neg (not_not.2 hseal)]
      exact ⟨_, rfl, .inl ⟨rfl, (length_map _).trans (hprep _ hs)⟩⟩
    · rw [if_pos hseal]
      exact ⟨_, rfl, .inr ⟨hseal, rfl⟩⟩

theorem fits_size (hfits : e.fits c = true) : e.descs ≠ [] ∧ e.descs.length ≤ c.queueSize.toNat := by
  have hpos := c.size_eq ▸ Nat.two_pow_pos c.bits
  cases e with
  | desc | ipcGet => exact ⟨by simp [Enqueue.descs], hpos⟩
  | batch ds => simpa [Enqueue.fits, Enqueue.descs] using hfits
  | releaseGroup data release ready =>
    have hlt : data.length < c.queueSize.toNat := by simpa [Enqueue.fits] using hfits
    exact ⟨by simp [Enqueue.descs], by simp [Enqueue.descs]; omega⟩

theorem eq_of_flags {s' : Proxy n} (hcore : s'.toCore = s.toCore) (hflags : s'.flags = s.flags) : s' = s := by
  cases s
  cases s'
  simp_all [Proxy.flags]

theorem attempt_cases (hblank : Blank s.fabric) (hfits : e.fits c = true) (hfree : (s.peers p).lock = .free) :
    ((attempt c s p e).1 = .success ∧ Enqueued c s.toCore (attempt c s p e).2.toCore p e) ∨
      ((attempt c s p e).1 ≠ .success ∧ (attempt c s p e).2 = s) := by
  obtain ⟨hne, hsize⟩ := fits_size hfits
  unfold attempt
  split
  · rename_i result hrefusal
    refine .inr ⟨fun hs => ?_, rfl⟩
    unfold Proxy.refusal at hrefusal
    split at hrefusal <;> split_ifs at hrefusal <;> rw [← some.inj hrefusal] at hs <;> cases hs
  split_ifs with hspace
  swap
  · exact .inr ⟨nofun, rfl⟩
  generalize hx : s.setPeer p { s.peers p with lock := .admitted e } = x
  have hpeer : x.peers p = { s.peers p with lock := .admitted e } := hx ▸ Core.setPeer_self ..
  have hcore : x.toCore = s.toCore.setPeer p { s.peers p with lock := .admitted e } := hx ▸ rfl
  have hfabric : x.fabric = s.fabric := hcore ▸ rfl
  obtain ⟨out, hout, hcases⟩ := publish_notes (c := c) (congrArg Peer.lock hpeer)
  have hmove := publish_moves hout
  have hflags := publish_flags hout
  rw [hout]
  obtain ⟨result, s', notes⟩ := out
  dsimp only at hmove hflags hcases ⊢
  generalize hy : s'.toCore = y at hmove
  cases hmove with
  | publish p e' f f' hlock hsubmit hseal =>
    obtain rfl : e = e' := Lock.admitted.inj ((congrArg Peer.lock hpeer).symm.trans hlock)
    rcases hcases with ⟨hs, -⟩ | ⟨-, hnil⟩
    swap
    · have := congrArg length hnil
      simp [hne] at this
    have hpub := publish_enqueued hsize hsubmit hseal
    refine .inl ⟨hs, ?_, ?_, ?_, ?_⟩
    · simpa only [hpeer] using hpub.sequence
    · simpa only [hpeer] using hpub.producer
    · simpa only [hpeer] using hpub.slots
    · simpa only [hfabric] using hpub.group
  | unpublish p e' k f hlock hsubmit =>
    rcases hcases with ⟨-, hlen⟩ | ⟨hs, -⟩
    · exact absurd (length_eq_zero_iff.1 hlen.symm) hne
    have hunlocked : { s.peers p with lock := .free } = s.peers p := by rw [← hfree]
    rw [cancelAll_submitAll (hfabric ▸ hblank) hsubmit, hpeer, hunlocked, hcore, Core.setPeer_setPeer, Core.setPeer_eq] at hy
    refine .inr ⟨hs, ?_⟩
    exact eq_of_flags hy (hflags.trans (hx ▸ rfl))

/-- **An enqueue is all or nothing.** Whatever the others do between the passes of a call, the call adds to a state that they
reach either all of its descriptors, or an error and nothing else. The second part says which members an entry point gives
to its group. -/
theorem rma_enqueue_all_or_nothing {ok : Run n → Action n → Prop} {r : Run n} (hreach : Reachable c ok r) {result : Result}
    (hcall : Called c ok p e r result s) :
    (∃ r', Reach (step c) ok r r' ∧ (result = .success ∧ Enqueued c r'.proxy.toCore s.toCore p e ∨
      result ≠ .success ∧ s = r'.proxy)) ∧
    ∀ (call : ApiCall) g gid data release ready, call.enqueue g gid = .releaseGroup data release ready →
      release.releaseGroup = some g ∧ (data ++ [release]).countP (·.trackedGroup = some g) = data.length := by
  refine ⟨?_, fun call g gid _ _ _ h => call.members g gid h⟩
  induction hcall with
  | refused r hfits =>
    refine ⟨r, .init, ?_⟩
    split_ifs with hnil
    · refine .inl ⟨rfl, ?_⟩
      refine ⟨?_, ?_, by simp [hnil], fun g hg => ?_⟩
      · rw [hnil]
        exact (UInt64.add_zero _).symm
      · rw [hnil]
        exact (UInt32.add_zero _).symm
      · cases e with
        | releaseGroup data release ready => simp [Enqueue.descs] at hnil
        | _ => cases hg
    · exact .inr ⟨by rintro ⟨⟩, rfl⟩
  | done r hfits hfree hresult => exact ⟨r, .init, attempt_cases hreach.blank hfits hfree⟩
  | retry r r' result s hfits hfree hresult hothers hcall ih =>
    rcases attempt_cases hreach.blank hfits hfree with ⟨hs, -⟩ | ⟨-, hsame⟩
    · rw [hresult] at hs
      cases hs
    · rw [hsame] at hothers
      obtain ⟨start, groups, hinit, hrun⟩ := hreach
      obtain ⟨r₁, hr₁, hcases⟩ := ih ⟨start, groups, hinit, hrun.trans hothers⟩
      exact ⟨r₁, hothers.trans hr₁, hcases⟩

def twoPuts : Enqueue := .batch [batchPutDesc ⟨0, 0, 8, 0, 0⟩, batchPutDesc ⟨8, 8, 8, 0, 0⟩]

theorem rma_enqueue_two : ∃ r', Reach (step fourSlots) (fun _ _ => True) ⟨fourStart, []⟩ r' ∧
    Enqueued fourSlots r'.proxy.toCore (attempt fourSlots fourStart 0 twoPuts).2.toCore 0 twoPuts := by
  have hs : (attempt fourSlots fourStart 0 twoPuts).1 = .success := by decide +kernel
  have hcall : Called fourSlots (fun _ _ => True) 0 twoPuts ⟨fourStart, []⟩ (attempt fourSlots fourStart 0 twoPuts).1
      (attempt fourSlots fourStart 0 twoPuts).2 := .done _ rfl rfl (by rw [hs]; nofun)
  obtain ⟨r', hr, hcases⟩ := (rma_enqueue_all_or_nothing ⟨_, _, fourSlots_init, .init⟩ hcall).1
  rw [hs] at hcases
  exact ⟨r', hr, by simpa using hcases⟩

end FlagCX.Rma
