import FlagCX.Rma.Progress

/-!
# What the steps of the RMA proxy do to its core

`Move` are the changes of the core that a step is made of, with the notes they leave. A step is a list of moves
(`act_moves`); the flags and the place of the progress thread are not part of the core.
-/

namespace FlagCX.Rma

open Net Lib Function
open KernelProxy (Domain CompletionStage)

variable {n : Nat}

/-! ## Parts of a move -/

/-- The descriptor `k` places behind the consumer index. -/
def Peer.ringAt (c : Config n) (peer : Peer) (k : Nat) : Desc := peer.slots (c.slot (peer.ci + UInt32.ofNat k))

/-- `ds` stand at the head of the ring. -/
structure Heads (c : Config n) (peer : Peer) (ds : List Desc) : Prop where
  size : ds.length ≤ (peer.pi - peer.ci).toNat
  at_ : ∀ k d, ds[k]? = some d → peer.ringAt c k = d

def Enqueue.group : Enqueue → Option Nat
  | .releaseGroup _ release _ => release.releaseGroup
  | _ => none

/-- The enqueue stores its last sequence to `readySeqsCpu`. -/
def Enqueue.stores : Enqueue → Bool
  | .desc _ streamSyncReady => !streamSyncReady
  | .batch ds => !ds.isEmpty
  | .releaseGroup _ _ streamSyncReady => !streamSyncReady
  | .ipcGet _ => false

def Enqueue.signals : Enqueue → Bool
  | .desc d streamSyncReady => streamSyncReady && !d.streamEvent
  | .releaseGroup _ _ streamSyncReady => streamSyncReady
  | _ => false

def Enqueue.isIpc : Enqueue → Bool
  | .ipcGet _ => true
  | _ => false

def number : UInt64 → List Desc → List Desc
  | _, [] => []
  | base, d :: ds => prepared (base + 1) d :: number (base + 1) ds

def Enqueue.last (e : Enqueue) (base : UInt64) : UInt64 := base + UInt64.ofNat e.descs.length

def Peer.publish (c : Config n) (peer : Peer) (e : Enqueue) : Peer :=
  let last := e.last peer.opSeq
  { peer with
    opSeq := last
    slots := fill c.queueMask peer.slots peer.pi (number peer.opSeq e.descs)
    pi := peer.pi + UInt32.ofNat e.descs.length
    readySeq := if e.stores then last else peer.readySeq
    signals := peer.signals ++ if e.signals then [last] else []
    lock := if e.isIpc then .arming peer.pi else .free }

def submitAll (p : Fin n) : Fabric (Fin n) → List Submission → Option (Fabric (Fin n))
  | f, [] => some f
  | f, d :: ds =>
    let out := f.call (.submit p d.submitContext d.trackedGroup)
    if out.1 = .success then submitAll p out.2 ds else none

def cancelAll (p : Fin n) (f : Fabric (Fin n)) : List Submission → Fabric (Fin n)
  | [] => f
  | d :: ds => ((cancelAll p f ds).call (.cancel p d.submitContext)).2

def sealed? (f : Fabric (Fin n)) : Option Nat → Option (Fabric (Fin n))
  | none => some f
  | some g => if (f.call (.groupSeal g)).1 = .success then some (f.call (.groupSeal g)).2 else none

/-- `flagcxRmaProxyCompleteDesc` on the core. -/
def Core.complete (x : Core n) (p : Fin n) (d : Submission) (result : Result) : Core n :=
  let tracked := x.fabric.call (.completion p d.submitContext result)
  let next := (tracked.2.boards p).nextSequence
  let peer := x.peers p
  { x with
    fabric := tracked.2
    peers := update x.peers p { peer with
      doneSeq := if 0 < next ∧ peer.doneSeq < next - 1 then next - 1 else peer.doneSeq }
    completionCount := x.completionCount + if result = .success ∧ d.completesApiOperation then 1 else 0 }

/-- The answer of the scoreboard to a completion. -/
def Core.tracked (x : Core n) (p : Fin n) (d : Submission) (result : Result) : Result :=
  (x.fabric.call (.completion p d.submitContext result)).1

def Submission.needsFlush (c : Config n) (d : Submission) : Prop :=
  d.type = .get ∧ d.size ≠ 0 ∧ c.requiresFlush d.dstMrIdx = true

/-- `d` is `h` after its post: the request and the result are set. -/
def Carried (h d : Desc) : Prop := d = { h with request := d.request, completionResult := d.completionResult }

def walkDomain (p : Fin n) (peer : Peer) (index : Nat) (ans : Answers) (pendingError : Bool) : Shore n :=
  postFlush p index ans (extendData index (testFlush p index ans ⟨peer.domains index, peer.inProgress, pendingError, []⟩))

/-! ## Moves -/

/-- The changes of the core that the steps are made of, with the action they belong to. -/
inductive Move (c : Config n) (x : Core n) : Action n → Core n → List (Note n) → Prop
  | admitCall (p : Fin n) (call : ApiCall) (groupId : UInt64) (e : Enqueue) (he : e = call.enqueue x.groupCount groupId)
      (hlock : (x.peers p).lock = .free) (hvalid : call.valid c = true) (hfits : e.fits c = true)
      (hspace : hasSpace c (x.peers p) e = true) (hgroup : e.group = none) :
      Move c x (.admitCall p call groupId) (x.setPeer p { x.peers p with lock := .admitted e }) []
  | admitGroup (p : Fin n) (call : ApiCall) (groupId : UInt64) (e : Enqueue) (group : ReleaseGroup)
      (he : e = call.enqueue x.groupCount groupId) (hlock : (x.peers p).lock = .free) (hvalid : call.valid c = true)
      (hfits : e.fits c = true) (hspace : hasSpace c (x.peers p) e = true) (hgroup : e.group = some x.groupCount)
      (hinit : releaseGroupInit groupId generation = .ok group) :
      Move c x (.admitCall p call groupId) { x.setPeer p { x.peers p with lock := .admitted e } with
        fabric := x.fabric.onGroup x.groupCount group, groupCount := x.groupCount + 1 } []
  | publish (p : Fin n) (e : Enqueue) (f f' : Fabric (Fin n)) (hlock : (x.peers p).lock = .admitted e)
      (hsubmit : submitAll p x.fabric ((number (x.peers p).opSeq e.descs).map (·.toSubmission)) = some f)
      (hseal : sealed? f e.group = some f') :
      Move c x (.publish p) { x.setPeer p ((x.peers p).publish c e) with fabric := f' }
        ((number (x.peers p).opSeq e.descs).map fun d =>
          .published p d.toSubmission (if e.signals then some (e.last (x.peers p).opSeq) else none))
  | unpublish (p : Fin n) (e : Enqueue) (k : Nat) (f : Fabric (Fin n)) (hlock : (x.peers p).lock = .admitted e)
      (hsubmit : submitAll p x.fabric (((number (x.peers p).opSeq e.descs).map (·.toSubmission)).take k) = some f) :
      Move c x (.publish p) { x.setPeer p { x.peers p with lock := .free } with
        fabric := cancelAll p f (((number (x.peers p).opSeq e.descs).map (·.toSubmission)).take k) } []
  | arm (p : Fin n) (idx : UInt32) (ipcStatus : Result) (hlock : (x.peers p).lock = .arming idx) :
      Move c x (.arm p ipcStatus) (x.setPeer p { x.peers p with
        slots := update (x.peers p).slots (c.slot idx)
          { (x.peers p).slots (c.slot idx) with ipcStatus := ipcStatus, eventArmed := true }
        lock := .free }) []
  | signal (p : Fin n) (k : Nat) (seq : UInt64) (hk : (x.peers p).signals[k]? = some seq) : Move c x (.signal p k)
        (x.setPeer p { x.peers p with readySeq := seq, signals := (x.peers p).signals.eraseIdx k }) [.fired p seq]
  | hand {ans : Answers} (p : Fin n) (ds : List Desc) (call : Desc → NetCall) (result : Result) (staging : UInt64)
      (hheads : Heads c (x.peers p) ds)
      (hready : ∀ d ∈ ds, d.opSeq ≤ (x.peers p).readySeq ∨ ∃ h ∈ ds, h.streamEvent = true ∧ (h = d ∨ h.type = .put))
      (hrelease : ∀ d ∈ ds, d.type = .release → releaseVerdict x.fabric d.releaseGroup = ⟨.success, true, true⟩)
      (hstaging : (staging = (x.peers p).staging ∧ ∀ d ∈ ds, d.type ≠ .putValue) ∨
        ∃ d, ds = [d] ∧ d.type = .putValue ∧ staging = d.putValue)
      (hcall : ∀ d ∈ ds, d.type = .release → call d = .iputSignal 0 0 0 none d.signalOff d.signalValue) :
      Move c x (.progress ans) (x.setPeer p { x.peers p with staging := staging })
        (ds.map fun d => .handed p d.toSubmission (call d) result)
  | openDomain {ans : Answers} (p : Fin n) (index : Nat) (orderingKey : UInt64) (domain : Domain)
      (hindex : index < c.queueSize.toNat) (hfree : ((x.peers p).domains index).inUse = false)
      (hinit : Domain.init p orderingKey = .ok domain) :
      Move c x (.progress ans) (x.setPeer p { x.peers p with
        domains := update (x.peers p).domains index domain, active := (x.peers p).active ++ [index] }) []
  | take {ans : Answers} (p : Fin n) (hs ds : List Desc) (hheads : Heads c (x.peers p) hs)
      (hroom : (x.peers p).inFlight.toNat + ds.length ≤ c.queueSize.toNat) (hcarried : List.Forall₂ Carried hs ds)
      (hflush : ∀ d ∈ ds, d.needsFlush c → d.completionResult ≠ .success)
      (hrelease : ∀ d ∈ ds, d.type = .release → d.completionResult = .success →
        releaseVerdict x.fabric d.releaseGroup = ⟨.success, true, true⟩)
      (hstaging : ∀ d ∈ ds, d.type = .putValue → d.request = true → (x.peers p).staging = d.putValue) :
      Move c x (.progress ans) (x.setPeer p { x.peers p with
        ci := (x.peers p).ci + UInt32.ofNat ds.length, inProgress := (x.peers p).inProgress ++ ds
        inFlight := (x.peers p).inFlight + UInt32.ofNat ds.length }) (ds.map fun d => .consumed p d.toSubmission)
  | takeTracked {ans : Answers} (p : Fin n) (h : Desc) (request : Bool) (index getSequence : Nat) (domain : Domain)
      (hheads : Heads c (x.peers p) [h]) (hroom : (x.peers p).inFlight.toNat + 1 ≤ c.queueSize.toNat)
      (hget : h.type = .get) (hactive : index ∈ (x.peers p).active)
      (hissue : ((x.peers p).domains index).issue = .ok (domain, getSequence))
      (hkey : ((x.peers p).domains index).orderingKey = h.orderingKey) :
      Move c x (.progress ans) (x.setPeer p { x.peers p with
        domains := update (x.peers p).domains index domain
        ci := (x.peers p).ci + 1
        inProgress := (x.peers p).inProgress ++ [{ h with
          request := request, completionResult := .success, getSequence := getSequence,
          getVisibilityDomain := some index }]
        inFlight := (x.peers p).inFlight + 1 }) [.consumed p h.toSubmission]
  | retire {ans : Answers} (p : Fin n) (i : Nat) (d : Desc) (result : Result) (hi : (x.peers p).inProgress[i]? = some d)
      (hresult : result = d.completionResult ∨ (result ≠ .success ∧ d.request = true))
      (hget : d.getSequence = 0 ∨ ∃ index, d.getVisibilityDomain = some index ∧ d.completionStage = .flushPending ∧
        d.getSequence ≤ ((x.peers p).domains index).visibleGetSequence ∧ result = d.completionResult) :
      Move c x (.progress ans) ((x.setPeer p { x.peers p with
        inProgress := (x.peers p).inProgress.eraseIdx i, inFlight := (x.peers p).inFlight - 1 }).complete p
          d.toSubmission result)
        [.completed p d.toSubmission result (x.tracked p d.toSubmission result)]
  | settle {ans : Answers} (p : Fin n) (d : Desc) (result : Result) (hheads : Heads c (x.peers p) [d])
      (hresult : result ≠ .success ∨ d.type = .ipcGet) :
      Move c x (.progress ans) ((x.setPeer p { x.peers p with ci := (x.peers p).ci + 1 }).complete p d.toSubmission result)
        [.consumed p d.toSubmission, .completed p d.toSubmission result (x.tracked p d.toSubmission result)]
  | dataDone {ans : Answers} (p : Fin n) (i : Nat) (d : Desc) (result : Result) (hi : (x.peers p).inProgress[i]? = some d)
      (hstage : d.completionStage ≠ .flushPending) (hseq : d.getSequence ≠ 0)
      (hresult : result = d.completionResult ∨ result ≠ .success) :
      Move c x (.progress ans) (x.setPeer p { x.peers p with
        inProgress := (x.peers p).inProgress.set i { d with
          request := false, completionResult := result, getDataComplete := true, completionStage := .flushPending } })
        [.dataDone p d.toSubmission (d.getVisibilityDomain.getD 0) d.getSequence result]
  | domain (p : Fin n) (index : Nat) (ans : Answers) (pendingError : Bool) (hactive : index ∈ (x.peers p).active)
      (huse : ((x.peers p).domains index).inUse = true) :
      Move c x (.progress ans) (x.setPeer p { x.peers p with
        domains := update (x.peers p).domains index (walkDomain p (x.peers p) index ans pendingError).domain
        inProgress := (walkDomain p (x.peers p) index ans pendingError).inProgress })
        (walkDomain p (x.peers p) index ans pendingError).notes
  | prune {ans : Answers} (p : Fin n) : Move c x (.progress ans) (x.setPeer p (pruneGetVisibilityDomains (x.peers p))) []
  | deliver (p : Fin n) (i : Nat) (d : Desc) (hi : (x.peers p).inProgress[i]? = some d) (htype : d.type = .putValue)
      (hrequest : d.request = true) : Move c x (.dmaRead p i) x [.delivered p d.toSubmission (x.peers p).staging]

/-- The moves of an action: at most one, except for the progress thread. -/
inductive Moves (c : Config n) (a : Action n) : Core n → Core n → List (Note n) → Prop
  | nil (x : Core n) : Moves c a x x []
  | one {x y : Core n} {ns : List (Note n)} (h : Move c x a y ns) : Moves c a x y ns
  | cons {x y z : Core n} {ns ns' : List (Note n)} (ha : ∃ ans, a = .progress ans) (h : Move c x a y ns)
      (hs : Moves c a y z ns') : Moves c a x z (ns ++ ns')

end FlagCX.Rma
