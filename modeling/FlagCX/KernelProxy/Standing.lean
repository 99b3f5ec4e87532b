import FlagCX.KernelProxy.InOrder

/-!
# A call of the kernel worker keeps the order

* `Handles`  : what the `switch` on a trigger at hand leaves.
* `Standing` : the invariant of the worker and of all that was decided so far.
* `Standing.progress` : a call keeps it.
-/

namespace FlagCX.KernelProxy
open List Option

open Net Transport

/-! ## What a post publishes -/

section Post
variable {k : Kernel} {h : List Effect}

theorem silent_ite {c : Prop} [Decidable c] {p q : List Effect} (hp : Silent p) (hq : Silent q) :
    Silent (if c then p else q) := by
  split_ifs
  · exact hp
  · exact hq

theorem silent_abandon (k : Kernel) (slot : Nat) (stagingSlot : Int) (r : Result) : Silent (k.abandon slot stagingSlot r).2.2 := by
  rw [Kernel.abandon, apply_ite fun out : Result × Kernel × List Effect => out.2.2]
  exact silent_ite (silent_publish _) (silent_ite (silent_publish _) silent_nil)

theorem finishPost_effects (k : Kernel) (slot : Nat) (stagingSlot : Int) (flush : Bool) (a : PostAnswer) :
    Silent (k.finishPost slot stagingSlot flush a).2.2.2 ∧
      ((k.finishPost slot stagingSlot flush a).2.1 = true → (k.finishPost slot stagingSlot flush a).1 = .success) := by
  rw [Kernel.finishPost]
  cases a.request with
  | some request =>
    dsimp only
    generalize (if a.result = .inProgress then Result.success else a.result) = r
    by_cases hok : (k.transport.publishRequest slot request r).1 = .success
    · rw [if_neg (not_not.2 hok)]
      exact ⟨silent_failed _, fun _ => rfl⟩
    · rw [if_pos hok]
      exact ⟨silent_publish _, by rintro ⟨⟩⟩
  | none =>
    by_cases hflush : a.result = .success ∧ flush = true
    swap
    · rw [if_neg hflush]
      exact ⟨silent_abandon k slot stagingSlot _, by rintro ⟨⟩⟩
    rw [if_pos hflush]
    by_cases hok : (k.transport.publishGetFlushPending slot).1 = .success
    · rw [if_neg (not_not.2 hok)]
      exact ⟨silent_nil, fun _ => rfl⟩
    · rw [if_pos hok]
      exact ⟨silent_publish _, by rintro ⟨⟩⟩

theorem postReserved_effects (k : Kernel) (comm : Comm) (staging : Staging) (buffer : Nat → UInt64) (a : PostArgs) (slot : Nat)
    (held : Int) (flush : Bool) (answer : PostAnswer) {out : Kernel.Outcome}
    (hout : k.postReserved comm staging buffer a slot held flush answer = out) :
    Silent out.effects ∧ (out.posted = true → out.result = .success) := by
  rw [Kernel.postReserved] at hout
  cases hcall : Kernel.netCall comm staging a k.stagingSlotCount held <;> rw [hcall] at hout <;> rw [← hout] <;>
    exact finishPost_effects ..

theorem postStaged_effects (k : Kernel) (comm : Comm) (staging : Staging) (buffer : Nat → UInt64) (a : PostArgs) (held : Int)
    (answer : PostAnswer) : Silent (k.postStaged comm staging buffer a held answer).effects ∧
      ((k.postStaged comm staging buffer a held answer).posted = true →
        (k.postStaged comm staging buffer a held answer).result = .success) := by
  rw [Kernel.postStaged]
  cases (k.transport.reserveRequest a.submit a.peer held).2.2 with
  | none => exact ⟨silent_nil, by rintro ⟨⟩⟩
  | some slot =>
    dsimp only
    by_cases hflush : a.type = .get ∧ a.size ≠ 0 ∧ comm.getRequiresFlush a.dstMrIdx = true
    swap
    · rw [if_neg hflush]
      exact postReserved_effects _ _ _ _ _ _ _ _ _ rfl
    rw [if_pos hflush]
    by_cases hok : (Kernel.requireFlush (k.transport.reserveRequest a.submit a.peer held).2.1 comm a slot).1 = .success
    · rw [if_neg (not_not.2 hok)]
      exact postReserved_effects _ _ _ _ _ _ _ _ _ rfl
    · rw [if_pos hok]
      exact ⟨silent_nil, by rintro ⟨⟩⟩

theorem post_effects (k : Kernel) (comm : Comm) (staging : Staging) (buffer : Nat → UInt64) (a : PostArgs)
    (answer : PostAnswer) : Silent (k.post comm staging buffer a answer).effects ∧
      ((k.post comm staging buffer a answer).posted = true → (k.post comm staging buffer a answer).result = .success) := by
  rw [Kernel.post]
  dsimp only
  split_ifs
  · exact ⟨silent_nil, by rintro ⟨⟩⟩
  · cases k.acquireStagingSlot.2.2 with
    | none => exact ⟨silent_nil, by rintro ⟨⟩⟩
    | some slot => exact postStaged_effects ..
  · exact postStaged_effects ..

end Post

/-! ## The trigger at hand -/

/-- What the worker does with the trigger at hand: it is handed over once when it is posted, nothing of it is recorded, and
what the worker keeps of it stays. -/
structure Handles (w : Worker) (h : List Effect) (out : Handled) : Prop where
  ordered : Ordered (consumes h + 1) out.worker.kernel (h ++ out.effects)
  unposted : out.posted = false → Ordered (consumes h) out.worker.kernel (h ++ out.effects)
  consumes : consumes out.effects = 0
  takes : takes out.effects = []
  retry : out.retry = true → out.posted = false
  submit : out.worker.submit = w.submit
  pending : out.worker.pending = w.pending
  pendingTracked : out.worker.pendingTracked = w.pendingTracked
  nextSequence : out.worker.kernel.transport.nextSequence = w.kernel.transport.nextSequence

section Handles
variable {w : Worker} {h : List Effect} {t : DeviceFifo.Trigger}

theorem handles_silent (ho : Ordered (consumes h) w.kernel h) {p : List Effect} (hp : Silent p) (groupCount termCount : Nat)
    (r : Result) : Handles w h ⟨r, false, false, { w with groupCount := groupCount, termCount := termCount }, p⟩ := by
  obtain ⟨hc, ht, -, -⟩ := hp.counts
  exact {
    ordered := (ho.silent hp).mono (Nat.le_succ _)
    unposted := fun _ => ho.silent hp
    consumes := hc
    takes := ht
    retry := nofun
    submit := rfl
    pending := rfl
    pendingTracked := rfl
    nextSequence := rfl }

theorem Ordered.posted (ho : Ordered (consumes h) w.kernel h) (hat : AtHand h w.submit t) {k' : Kernel} {i : Nat} {held : Int}
    (hp : Posted w.kernel.transport k' i w.submit held) : Ordered (consumes h + 1) k' h := by
  have ho' := ho.mono (Nat.le_succ _)
  refine { ho' with
    books := hp.books
    agrees := hp.scoreboard ▸ ho.agrees
    front := hp.scoreboard ▸ ho.front
    requests := fun j hj hlive => ?_ }
  by_cases hji : j = i
  · rw [hji, hp.submit, hat.number]
    omega
  · rw [hp.other j hji] at hlive ⊢
    exact ho'.requests j (hp.capacity ▸ hj) hlive

theorem Ordered.hand {k : Kernel} {bound : Nat} {submit : SubmitContext} (ho : Ordered bound k h) (hat : AtHand h submit t)
    (call : NetCall) {posted : Bool} (hnew : posted = true → consumes h < bound ∧
      ∀ s t' c, .hand s t' c true ∈ h → s.sequence.toNat ≤ consumes h) :
    Ordered bound k (h ++ [.hand submit t call posted]) := by
  have hallowed : Allowed h (.hand submit t call posted) := by
    refine ⟨hat, fun hposted s t' c hmem he => ?_⟩
    have hle := (hnew hposted).2 s t' c hmem
    rw [he, hat.number] at hle
    omega
  have hresult : resultOf (h ++ [.hand submit t call posted]) = resultOf h := by
    funext n
    rw [resultOf_append]
    exact or_none
  refine ⟨ho.books, hresult ▸ ho.agrees, ho.lawful.concat hallowed, ?_, hresult ▸ ho.past, ho.requests, ?_,
    fun s t' c hmem => ?_⟩
  · rw [advances_append]
    exact ho.front
  · intro n r hn hne
    rw [hresult] at hn
    exact (ho.published n r hn hne).append _
  · rcases mem_append.1 hmem with hold | hlast
    · exact ho.hands s t' c hold
    · obtain ⟨rfl, -, -, rfl⟩ : s = submit ∧ t' = t ∧ c = call ∧ true = posted := by simpa using hlast
      have := (hnew rfl).1
      rw [hat.number]
      omega

section

variable (ho : Ordered (consumes h) w.kernel h) (hat : AtHand h w.submit t) (node : Node)
include ho hat node

/-- **A trigger at hand is posted at most once.** -/
theorem handles_postTo (needsSignal : Bool) {a : PostArgs} (ha : a.submit = w.submit) (reply : Reply) :
    Handles w h (w.postTo node needsSignal t a reply) := by
  rw [Worker.postTo]
  split_ifs
  · exact handles_silent ho silent_nil _ _ _
  · exact handles_silent ho silent_nil _ _ _
  have hspec := Kernel.post_spec ho.books node.comm node.staging w.buffer a reply.post
  obtain ⟨hsilent, hsuccess⟩ := post_effects w.kernel node.comm node.staging w.buffer a reply.post
  generalize w.kernel.post node.comm node.staging w.buffer a reply.post = out at *
  obtain ⟨hc, ht, -, -⟩ := hsilent.counts
  -- the adaptor may have been called
  have hcalled : ∀ {bound : Nat}, Ordered bound out.kernel h → (out.posted = true → consumes h < bound) →
      Ordered bound out.kernel (h ++ (out.call.map fun call => .hand w.submit t call out.posted).toList) := by
    intro bound hb hlt
    cases out.call with
    | none => exact (append_nil h).symm ▸ hb
    | some call => exact hb.hand hat call fun hposted => ⟨hlt hposted, ho.hands⟩
  have hunposted : out.posted = false → Ordered (consumes h) out.kernel h := by
    intro hno
    obtain ⟨hreq, hcap, -⟩ := (hspec.refused hno).transport.requests
    have hsb := (hspec.refused hno).transport.scoreboard.1
    exact { ho with
      books := hspec.books
      agrees := hsb ▸ ho.agrees
      front := hsb ▸ ho.front
      requests := fun i hi => by
        rw [hreq]
        exact ho.requests i (hcap ▸ hi) }
  have hposted : Ordered (consumes h + 1) out.kernel h := by
    cases hout : out.posted with
    | false => exact (hunposted hout).mono (Nat.le_succ _)
    | true =>
      obtain ⟨i, held, hp, -⟩ := hspec.posted hout
      exact ho.posted hat (ha ▸ hp)
  have hnext : out.kernel.transport.nextSequence = w.kernel.transport.nextSequence := by
    cases hout : out.posted with
    | false => exact (hspec.refused hout).transport.scoreboard.2
    | true =>
      obtain ⟨i, held, hp, -⟩ := hspec.posted hout
      exact hp.nextSequence
  exact {
    ordered := by
      rw [← append_assoc]
      exact (hcalled hposted fun _ => Nat.lt_succ_self _).silent hsilent
    unposted := fun hno => by
      rw [← append_assoc]
      exact (hcalled (hunposted hno) fun hyes => absurd (hno.symm.trans hyes) nofun).silent hsilent
    consumes := by
      rw [consumes_append, hc]
      cases out.call <;> rfl
    takes := by
      rw [takes_append, ht]
      cases out.call <;> rfl
    retry := fun hretry => by
      by_contra hne
      have hok := hsuccess (Bool.eq_true_of_not_eq_false hne)
      have hwait := of_decide_eq_true hretry
      cases hok.symm.trans hwait
    submit := rfl
    pending := rfl
    pendingTracked := rfl
    nextSequence := hnext }

theorem handles_addCounter (contextId : Int) (index : Nat) (value : DeviceFifo.Word) :
    Handles w h (w.addCounter node contextId t index value) := by
  rw [Worker.addCounter]
  generalize (if 0 < node.contextCount then node.contextCount else 1) = contextCount
  split_ifs
  · exact handles_silent ho silent_nil _ _ _
  · exact handles_silent ho silent_nil _ _ _
  · exact handles_silent ho silent_nil _ _ _
  have hcount : Ordered (consumes h) w.kernel (h ++ [.count w.submit t index value]) :=
    ho.append (ho.lawful.concat hat) rfl (fun _ => rfl) (by simp)
  exact {
    ordered := hcount.mono (Nat.le_succ _)
    unposted := fun _ => hcount
    consumes := rfl
    takes := rfl
    retry := nofun
    submit := rfl
    pending := rfl
    pendingTracked := rfl
    nextSequence := rfl }

theorem handles_handle (contextId : Int) (reply : Reply) : Handles w h (w.handle node contextId t reply) := by
  rw [Worker.handle]
  cases t.read with
  | send | recv | noOp => exact handles_silent ho silent_nil _ _ _
  | term totalCoops =>
    dsimp only
    split_ifs
    · exact handles_silent ho silent_nil _ _ _
    · exact handles_silent ho silent_nil _ _ _
  | put | signal | putSignal | putValue | get => exact handles_postTo ho hat node _ rfl reply
  | counter index value => exact handles_addCounter ho hat node contextId index value

end

end Handles

/-! ## The worker between two effects of its loop -/

/-- The triggers taken are those consumed and the pending one, whose submission has the next number once it is tracked. -/
structure Standing (w : Worker) (h : List Effect) : Prop where
  ordered : Ordered (consumes h) w.kernel h
  taken : ∃ prior, takes h = prior ++ w.pending.toList ∧ prior.length = consumes h
  next : w.kernel.transport.nextSequence.toNat = consumes h + 1 + (if w.pendingTracked then 1 else 0)
  tracked : w.pendingTracked = true → ∃ t, w.pending = some t ∧ w.submit.sequence.toNat = consumes h + 1 ∧
    w.submit.flags = submitFlags t

/-- What the worker does with its pending trigger: the order is kept, no trigger is taken. -/
structure Goes (h : List Effect) (out : Worker × List Effect) : Prop where
  standing : Standing out.1 (h ++ out.2)
  takes : takes out.2 = []

section Standing
variable {w w' : Worker} {h p : List Effect} {t : DeviceFifo.Trigger}

theorem Standing.stay (hs : Standing w h) (ho : Ordered (consumes h) w'.kernel (h ++ p)) (hc : consumes p = 0)
    (ht : takes p = []) (hpending : w'.pending = w.pending) (htracked : w'.pendingTracked = w.pendingTracked)
    (hsubmit : w'.submit = w.submit)
    (hnext : w'.kernel.transport.nextSequence = w.kernel.transport.nextSequence) : Goes h (w', p) := by
  have hcount : consumes (h ++ p) = consumes h := by rw [consumes_append, hc, add_zero]
  refine ⟨?_, ht⟩
  constructor
  · rw [hcount]
    exact ho
  · rw [hcount, takes_append, ht, append_nil, hpending]
    exact hs.taken
  · rw [hcount, hnext, htracked]
    exact hs.next
  · rw [hcount, htracked, hpending, hsubmit]
    exact hs.tracked

theorem Standing.silent (hs : Standing w h) (hp : Silent p) : Goes h (w, p) := by
  obtain ⟨hc, ht, -, -⟩ := hp.counts
  exact hs.stay (hs.ordered.silent hp) hc ht rfl rfl rfl rfl

theorem Standing.consumed (hs : Standing w h) (htracked : w.pendingTracked = true)
    (ho : Ordered (consumes h + 1) w'.kernel (h ++ p)) (hc : consumes p = 1) (ht : takes p = []) (hnone : w'.pending = none)
    (hlost : w'.pendingTracked = false) (hnext : w'.kernel.transport.nextSequence = w.kernel.transport.nextSequence) :
    Goes h (w', p) := by
  obtain ⟨t, hpending, -⟩ := hs.tracked htracked
  obtain ⟨prior, htaken, hlength⟩ := hs.taken
  have hcount : consumes (h ++ p) = consumes h + 1 := by rw [consumes_append, hc]
  refine ⟨?_, ht⟩
  constructor
  · rw [hcount]
    exact ho
  · refine ⟨prior ++ [t], ?_, ?_⟩
    · rw [takes_append, ht, htaken, hpending, hnone]
      rfl
    · rw [hcount, length_append, hlength]
      rfl
  · have hwas := hs.next
    rw [htracked, if_pos rfl] at hwas
    rw [hcount, hnext, hwas, hlost, if_neg (by decide)]
  · rw [hlost]
    exact nofun

theorem Ordered.consume {bound : Nat} {k : Kernel} (ho : Ordered bound k h) : Ordered bound k (h ++ [.consume]) :=
  ho.append (ho.lawful.concat trivial) rfl (fun _ => rfl) (by simp)

theorem Books.scoreboard {k : Kernel} (hb : Books (-1) k) (tracker : Tracker) :
    Books (-1) { k with transport := { k.transport with scoreboard := tracker } } :=
  hb.congr (hb.sound.keep rfl rfl rfl) (fun _ => rfl) (fun _ => rfl) rfl rfl

section

variable (hs : Standing w h)
include hs

/-- **What follows the `switch`**: the trigger stays for a retry, or it is consumed, and completed unless it was posted. -/
theorem Standing.settle (htracked : w.pendingTracked = true) {out : Handled} (hout : Handles w h out) :
    Goes h (Worker.settle out) := by
  obtain ⟨t, -, hnumber, -⟩ := hs.tracked htracked
  rw [Worker.settle]
  by_cases hretry : out.retry = true
  · rw [if_pos hretry]
    exact hs.stay (hout.unposted (hout.retry hretry)) hout.consumes hout.takes hout.pending hout.pendingTracked hout.submit
      hout.nextSequence
  rw [if_neg hretry]
  by_cases hposted : out.posted = true
  · rw [if_pos hposted]
    obtain ⟨hc, ht, -, -⟩ := (silent_failed out.result).counts
    refine hs.consumed htracked ?_ ?_ ?_ rfl rfl hout.nextSequence
    · rw [← append_assoc, ← append_assoc]
      exact hout.ordered.consume.silent (silent_failed _)
    · rw [consumes_append, consumes_append, hout.consumes, hc]
      rfl
    · rw [takes_append, takes_append, hout.takes, ht]
      rfl
  rw [if_neg hposted]
  dsimp only
  have ho := ((hout.unposted (Bool.eq_false_iff.2 hposted)).mono (Nat.le_succ _)).consume
  have hcount : consumes (h ++ out.effects ++ [.consume]) = consumes h + 1 := by
    rw [consumes_append, consumes_append, hout.consumes]
    rfl
  have hadvance : ∀ n, consumes [.advance n] = 0 ∧ takes [.advance n] = [] := fun n => ⟨rfl, rfl⟩
  generalize hdone : trackCompletion out.worker.kernel.transport.scoreboard out.worker.submit out.result = done
  by_cases hok : done.1 = .success
  · have hresult : (if done.1 ≠ .success then done.1 else out.result) = out.result := if_neg (not_not.2 hok)
    rw [if_pos hok, hresult]
    obtain ⟨hc, ht, -, -⟩ := (silent_failed out.result).counts
    have hretired : consumes (retired out.worker.submit out.result) = 0 ∧ takes (retired out.worker.submit out.result) = [] :=
      counts_polled (polled_retired _ _)
    refine hs.consumed htracked ?_ ?_ ?_ rfl rfl hout.nextSequence
    · have hpos : 0 < out.worker.submit.sequence.toNat := by
        rw [hout.submit, hnumber]
        exact Nat.succ_pos _
      have hrecord := ho.record hcount.ge hpos (by rw [hout.submit, hnumber]) (by rw [hdone]; exact hok)
        (hout.ordered.books.scoreboard done.2.2) ⟨rfl, rfl, fun _ _ => ⟨rfl, rfl, rfl⟩⟩ (by rw [hdone]) (silent_failed out.result)
        mem_failed
      rw [hdone] at hrecord
      simpa only [append_assoc] using hrecord.silent (silent_failed out.result)
    · simp only [consumes_append, hout.consumes, hretired.1, hc, (hadvance _).1]
      rfl
    · simp only [takes_append, hout.takes, hretired.2, ht, (hadvance _).2]
      rfl
  · -- the scoreboard refuses
    have hsame : done.2 = (0, out.worker.kernel.transport.scoreboard) := by
      rw [← hdone] at hok ⊢
      rcases trackCompletion_cases out.worker.kernel.transport.scoreboard out.worker.submit out.result with
        ⟨-, he⟩ | ⟨he, -⟩ | ⟨he, -⟩
      · exact he
      · exact absurd (congrArg Prod.fst he) hok
      · exact absurd he hok
    rw [if_neg hok, if_pos hok, hsame]
    obtain ⟨hc, ht, -, -⟩ := (silent_failed done.1).counts
    refine hs.consumed htracked ?_ ?_ ?_ rfl rfl hout.nextSequence
    · have hadvanced := ((ho.silent (silent_failed done.1)).advance_zero ?_).silent (silent_failed done.1)
      · simpa only [append_assoc, append_nil] using hadvanced
      · rw [consumes_append, hcount]
        exact Nat.le_add_right _ _
    · simp only [consumes_append, hout.consumes, hc, (hadvance _).1]
      rfl
    · simp only [takes_append, hout.takes, ht, (hadvance _).2]
      rfl

/-- **A release waits for all that came before it.** -/
theorem Standing.release (htracked : w.pendingTracked = true) (hpending : w.pending = some t) (node : Node)
    (contextId : Int) (reply : Reply) : Goes h (w.release node contextId t reply) := by
  obtain ⟨t', ht', hnumber, hflags⟩ := hs.tracked htracked
  obtain rfl : t = t' := some.inj (hpending.symm.trans ht')
  have hat : (signals t = true → ∀ n, 0 < n → n ≤ consumes h → resultOf h n = some .success) → AtHand h w.submit t := by
    intro hrelease
    obtain ⟨prior, htaken, hlength⟩ := hs.taken
    refine ⟨hnumber, ?_, hrelease⟩
    rw [htaken, hpending, ← hlength, toList_some, getElem?_concat_length]
  rw [Worker.release]
  by_cases hflag : w.submit.flags &&& submitRelease ≠ 0
  swap
  · rw [if_neg hflag]
    refine hs.settle htracked (handles_handle hs.ordered (hat fun hsig => absurd ?_ hflag) node contextId reply)
    rw [hflags]
    exact (submitFlags_release t).2 hsig
  rw [if_pos hflag]
  by_cases herror : w.kernel.transport.scoreboard.scoreboard.firstError = .success
  swap
  · rw [if_pos herror]
    exact hs.settle htracked (handles_silent hs.ordered (silent_publish _) w.groupCount w.termCount _)
  rw [if_neg (not_not.2 herror)]
  by_cases hready : w.kernel.transport.scoreboard.scoreboard.nextSequence = w.submit.sequence
  swap
  · rw [if_pos hready]
    exact hs.silent silent_nil
  rw [if_neg (not_not.2 hready)]
  refine hs.settle htracked (handles_handle hs.ordered (hat fun _ n hpos hle => ?_) node contextId reply)
  have hbelow : n < w.kernel.transport.scoreboard.scoreboard.nextSequence.toNat := by
    rw [hready, hnumber]
    omega
  obtain ⟨r, hr⟩ := isSome_iff_exists.1 (hs.ordered.agrees.isSome hpos hbelow)
  rw [hr, hs.ordered.agrees.errors herror n r hr]

theorem Standing.track (hpending : w.pending = some t) : Standing (w.track t).2 h ∧ (w.track t).2.pending = some t ∧
      ((w.track t).1 = .success → (w.track t).2.pendingTracked = true) := by
  rw [Worker.track]
  by_cases htracked : w.pendingTracked = true
  · rw [if_pos htracked]
    exact ⟨hs, hpending, fun _ => htracked⟩
  rw [if_neg htracked]
  have huntracked : w.pendingTracked = false := Bool.eq_false_iff.2 htracked
  have hnext := hs.next
  rw [huntracked, if_neg (by decide), add_zero] at hnext
  dsimp only
  rw [trackNext]
  generalize hcontext : (⟨w.kernel.transport.orderingKey, 0, w.kernel.transport.generation, w.kernel.transport.nextSequence,
    submitFlags t⟩ : SubmitContext) = context
  have hsequence : context.sequence = w.kernel.transport.nextSequence := by rw [← hcontext]
  have hflags : context.flags = submitFlags t := by rw [← hcontext]
  have hagrees := hs.ordered.agrees.submit context
  rcases trackSubmit_cases w.kernel.transport.scoreboard context none with ⟨hne, he⟩ | ⟨hok, hmax, -, -, -, -, he⟩
  · rw [if_pos hne, if_pos hne, he]
    exact ⟨hs, hpending, fun hok => absurd hok hne⟩
  rw [if_neg (not_not.2 hok), if_neg (not_not.2 rfl)]
  refine ⟨⟨?_, hs.taken, ?_, fun _ => ⟨t, hpending, ?_, hflags⟩⟩, hpending, fun _ => rfl⟩
  · have hfront : advances h + 1 = (trackSubmit w.kernel.transport.scoreboard context none).2.scoreboard.nextSequence.toNat := by
      rw [he]
      exact hs.ordered.front
    exact { hs.ordered with
      books := hs.ordered.books.congr (hs.ordered.books.sound.keep rfl rfl rfl) (fun _ => rfl) (fun _ => rfl) rfl rfl
      agrees := hagrees
      front := hfront }
  · -- the last number is never used
    rw [UInt64.toNat_add, UInt64.toNat_one, hnext]
    have hlast : consumes h + 1 ≠ 2 ^ 64 - 1 := by
      rw [← hnext]
      exact fun heq => hmax (hsequence ▸ UInt64.toNat_inj.1 heq)
    have hlt := w.kernel.transport.nextSequence.toNat_lt
    rw [hnext] at hlt
    exact Nat.mod_eq_of_lt (by omega)
  · rw [hsequence, hnext]

/-- **The pending trigger is processed.** -/
theorem Standing.process (hpending : w.pending = some t) (node : Node) (contextId : Int) (reply : Reply) :
    Goes h (w.process node contextId t reply) := by
  obtain ⟨hs', hpending', htracked⟩ := hs.track hpending
  rw [Worker.process]
  by_cases hok : (w.track t).1 = .success
  · rw [if_pos hok]
    exact hs'.release (htracked hok) hpending' node contextId reply
  · rw [if_neg hok]
    exact hs'.silent (silent_ite silent_nil (silent_publish _))

theorem Standing.take (hpending : w.pending = none) (t : DeviceFifo.Trigger) :
    Standing { w with pending := some t, pendingTracked := false } (h ++ [.take t]) := by
  obtain ⟨prior, htaken, hlength⟩ := hs.taken
  have huntracked : w.pendingTracked = false := by
    refine Bool.eq_false_iff.2 fun htracked => ?_
    obtain ⟨t', ht', -⟩ := hs.tracked htracked
    cases hpending.symm.trans ht'
  have hcount : consumes (h ++ [.take t]) = consumes h := consumes_append ..
  refine ⟨?_, ⟨prior, ?_, ?_⟩, ?_, nofun⟩
  · rw [hcount]
    exact hs.ordered.append (hs.ordered.lawful.concat trivial) rfl (fun _ => rfl) (by simp)
  · rw [takes_append, htaken, hpending]
    exact congrArg (· ++ [t]) (append_nil prior)
  · rw [hcount, hlength]
  · have hnext := hs.next
    rw [huntracked] at hnext
    rw [hcount]
    exact hnext

/-- **One call of the worker** keeps the order, whatever it is answered; it takes what `dequeue` returns. -/
theorem Standing.progress (node : Node) (contextId : Int) (terminal : Result) (dequeued : Option DeviceFifo.Trigger)
    (reply : Reply) : Standing (w.progress node contextId terminal dequeued reply).1
        (h ++ (w.progress node contextId terminal dequeued reply).2) ∧
      takes (w.progress node contextId terminal dequeued reply).2 =
        if terminal = .success ∧ w.pending = none then dequeued.toList else [] := by
  unfold Worker.progress
  by_cases hterminal : terminal = .success
  swap
  · rw [if_pos hterminal, if_neg fun hcall => hterminal hcall.1]
    refine ⟨(hs.silent fun e he => ?_).standing, rfl⟩
    rw [mem_singleton.1 he]
    rfl
  rw [if_neg (not_not.2 hterminal)]
  cases hpending : w.pending with
  | some t =>
    have hgoes := hs.process hpending node contextId reply
    rw [if_neg fun hcall => nomatch hcall.2]
    exact ⟨hgoes.standing, hgoes.takes⟩
  | none =>
    cases dequeued with
    | none =>
      rw [append_nil]
      exact ⟨hs, (ite_self _).symm⟩
    | some t =>
      have hgoes := (hs.take hpending t).process rfl node contextId reply
      rw [if_pos ⟨hterminal, rfl⟩, append_cons]
      refine ⟨hgoes.standing, ?_⟩
      exact congrArg (t :: ·) hgoes.takes

/-- **The poll at the start of a call.** -/
theorem Standing.poll (canTest : Bool) (first second : Nat → Kernel.Answers) :
    Goes h ({ w with kernel := (w.kernel.poll canTest first second).1 }, (w.kernel.poll canTest first second).2) := by
  obtain ⟨hc, ht⟩ := counts_polled (polled_poll w.kernel canTest first second)
  exact hs.stay (hs.ordered.poll le_rfl canTest first second) hc ht rfl rfl rfl
    (hs.ordered.books.poll canTest first second).2.nextSequence

end

end Standing

end FlagCX.KernelProxy
