import FlagCX.Lib.Guarded
import FlagCX.Lib.Keeps
import FlagCX.Group.Launch

/-!
# The lists of a group (`flagcxGroupCommJoin`, `flagcxGroupCommPreconnect`, `groupCleanup`)

A communicator is linked into the lists of its thread through a field of its own, which also says whether it is linked.

* `Linked`         : the lists hold the marked communicators, each once, and no job is left behind.
* `groups_linked`  : so it is after every run of calls.
-/

namespace FlagCX.Group
open Lib List Function

/-- Whether a communicator is in the group, and whether it is to be connected. -/
def HeteroComm.marks (comm : HeteroComm) : Bool × Bool := (comm.inGroup, comm.inPreconnect)

theorem update_marks {comms : Nat → HeteroComm} {c : Nat} {comm : HeteroComm} (h : comm.marks = (comms c).marks) (d : Nat) :
    (update comms c comm d).marks = (comms d).marks := by
  by_cases hd : d = c
  · rw [hd, update_self, h]
  · rw [update_of_ne hd]

/-! ## Collecting the tasks -/

section Collect
variable {F : Nat → Bool × Bool} {disable : Bool} {ans : Answers} {c : Nat} {s : LaunchState}

def Marked (F : Nat → Bool × Bool) (s : LaunchState) : Prop := ∀ c, (s.comms c).marks = F c

theorem Marked.setQueue (h : Marked F s) (pattern : Pattern) (peer : Nat) (tasks : List TaskP2p) :
    Marked F (s.setQueue c pattern peer tasks) := fun d => (update_marks (by rfl) d).trans (h d)

/-- The marks stay, and what is thrown is an error. -/
abbrev KeepsMarks (F : Nat → Bool × Bool) {α : Type} (x : Launch α) : Prop := Keeps (Marked F) (¬ accepted ·) x

theorem check_keeps (result : Result) : KeepsMarks F (check result) := by
  unfold check
  split_ifs with h
  · exact .pure _
  · exact .throw h

theorem require_keeps (holds : Bool) : KeepsMarks F (require holds) := by
  unfold require
  split_ifs
  · exact .pure _
  · exact .throw (by decide)

theorem recordEvent_keeps (n : Nat) : KeepsMarks F (recordEvent ans n) := by
  refine .bind (check_keeps _) fun _ => .get fun s hs => ?_
  split_ifs
  · exact .pure _
  · exact check_keeps _

theorem selfCopy_keeps (send recv : TaskP2p) : KeepsMarks F (selfCopy disable ans c send recv) := by
  refine .get fun s hs => ?_
  split_ifs
  · exact .pure _
  · exact .bind (check_keeps _) fun _ => .bind (recordEvent_keeps _) fun _ => .set hs

theorem selfLoop_keeps (sends recvs : List TaskP2p) : KeepsMarks F (selfLoop disable ans c sends recvs) := by
  induction sends generalizing recvs with
  | nil => exact .pure _
  | cons send sends ih =>
    unfold selfLoop
    cases recvs.find? (selfMatches send) with
    | none => exact .bind (ih recvs) fun _ => .pure _
    | some recv => exact .bind (selfCopy_keeps send recv) fun _ => ih _

theorem selfRound_keeps : KeepsMarks F (selfRound disable ans c) :=
  .get fun _ hs => .bind (.set ((hs.setQueue _ _ _).setQueue _ _ _)) fun _ => .bind (selfLoop_keeps _ _) fun _ =>
    .modify fun _ hs => (hs.setQueue _ _ _).setQueue _ _ _

theorem peerTask_keeps (pattern : Pattern) (peer roundOpId : Nat) (task : TaskP2p) :
    KeepsMarks F (peerTask disable ans c pattern peer roundOpId task) :=
  .bind (.modify fun _ hs => hs.setQueue _ _ _) fun _ => .get fun _ hs => .bind (check_keeps _) fun _ =>
    .bind (require_keeps _) fun _ => .bind (check_keeps _) fun _ => .bind (recordEvent_keeps _) fun _ => .set hs

theorem drain_keeps (recvPeer sendPeer roundOpId : Nat) (recvs sends : List TaskP2p) :
    KeepsMarks F (drain disable ans c recvPeer sendPeer roundOpId recvs sends) := by
  induction recvs generalizing sends with
  | nil => exact .forM (peerTask_keeps _ _ _) sends
  | cons recv recvs ih =>
    cases sends with
    | nil => exact .bind (peerTask_keeps _ _ _ _) fun _ => ih []
    | cons send sends =>
      exact .bind (peerTask_keeps _ _ _ _) fun _ => .bind (peerTask_keeps _ _ _ _) fun _ => ih sends

theorem roundTasks_keeps (roundOpId round : Nat) : KeepsMarks F (roundTasks disable ans c roundOpId round) := by
  refine .get fun s _ => .bind ?_ fun _ => .bind (drain_keeps _ _ _ _ _) fun _ => .pure _
  unfold beginRound
  split_ifs
  · exact .pure _
  · exact .modify fun _ hs => hs

theorem collectComm_keeps (disable : Bool) (ans : Answers) (c : Nat) : KeepsMarks F (collectComm disable ans c) :=
  .bind selfRound_keeps fun _ => .bind (.modify fun _ hs => hs) fun _ => .get fun _ _ =>
    .bind (.foldlM roundTasks_keeps _ _) fun _ => .modify fun _ hs d => (update_marks (by rfl) d).trans (hs d)

end Collect

/-! ## The launch -/

/-- The lists of a thread are those of its marked communicators. -/
structure Thread.Linked (t : Thread) : Prop where
  jobs : t.asyncJobs = []
  nodup : t.groupCommHead.Nodup ∧ t.groupCommPreconnectHead.Nodup
  marks : ∀ c, (t.comms c).marks = (decide (c ∈ t.groupCommHead), decide (c ∈ t.groupCommPreconnectHead))

/-- Outside every group the lists are empty. -/
def Thread.Closed (t : Thread) : Prop :=
  0 ≤ t.groupDepth ∧ (t.groupDepth = 0 → t.groupCommHead = [] ∧ t.groupCommPreconnectHead = [])

section Launch
variable (disable : Bool) (ans : Answers) {t : Thread}

/-- What `groupLaunch` leaves: behind an error the marked communicators are in the lists, else none is marked. -/
structure Left (t : Thread) (out : Result × Thread) : Prop where
  depth : out.2.groupDepth = t.groupDepth
  marks : ¬ accepted out.1 → ∀ c,
    (out.2.comms c).marks = (decide (c ∈ out.2.groupCommHead), decide (c ∈ out.2.groupCommPreconnectHead))
  ended : accepted out.1 → out.2.asyncJobs = [] ∧ ∀ c, (out.2.comms c).marks = (false, false)

theorem createJobs_error (cs jobs : List Nat) : ∀ e ∈ (createJobs ans cs jobs).1, ¬ accepted e := by
  induction cs generalizing jobs with
  | nil =>
    rintro e he
    cases he
  | cons c cs ih =>
    unfold createJobs
    split_ifs with h
    · exact ih _
    · rintro e he
      cases he
      exact h

theorem runJobs_error {ans : Answers} {jobs : List Nat} (h : runJobs ans jobs ≠ .success) : ¬ accepted (runJobs ans jobs) := by
  unfold runJobs at h ⊢
  split_ifs at h ⊢ with hall
  · cases hf : (jobs.map ans.preconnect).find? fun result => !accepted result with
    | none =>
      rw [hf] at h
      exact absurd rfl h
    | some e => simpa using find?_some hf
  · decide

theorem leave_marks (cs : List Nat) (comms : Nat → HeteroComm) (c : Nat) :
    (leave cs comms c).marks = (decide (c ∉ cs) && (comms c).inGroup, (comms c).inPreconnect) := by
  unfold leave
  split_ifs with h <;> simp [HeteroComm.marks, h]

theorem leavePreconnect_marks (cs : List Nat) (comms : Nat → HeteroComm) (c : Nat) :
    (leavePreconnect cs comms c).marks = ((comms c).inGroup, decide (c ∉ cs) && (comms c).inPreconnect) := by
  unfold leavePreconnect
  split_ifs with h <;> simp [HeteroComm.marks, h]

theorem launchTasks_left (hp : t.groupCommPreconnectHead = [])
    (hm : ∀ c, (t.comms c).marks = (decide (c ∈ t.groupCommHead), decide (c ∈ t.groupCommPreconnectHead))) :
    Left t (launchTasks disable ans t) := by
  have hkept := Keeps.forM (collectComm_keeps disable ans) t.groupCommHead
    ⟨t.comms, StepMap.empty, 0, 0, fun _ => 0⟩ hm
  unfold launchTasks
  cases h : t.groupCommHead.forM (collectComm disable ans) ⟨t.comms, StepMap.empty, 0, 0, fun _ => 0⟩ with
  | error e s =>
    rw [h] at hkept
    exact ⟨rfl, fun _ => hkept.2, fun he => absurd he hkept.1⟩
  | ok _ s =>
    rw [h] at hkept
    dsimp only
    split_ifs with hsave hfunc
    · exact ⟨rfl, fun _ => hkept, fun he => absurd he hfunc.2⟩
    · refine ⟨rfl, fun he => absurd (by decide : accepted .success = true) he, fun _ => ⟨rfl, fun c => ?_⟩⟩
      have hc := Prod.ext_iff.1 (hkept c)
      rw [leave_marks, show (s.comms c).inGroup = _ from hc.1, show (s.comms c).inPreconnect = _ from hc.2, hp]
      simp
    · exact ⟨rfl, fun _ => hkept, fun he => absurd he hsave⟩

theorem groupLaunch_left (h : t.Linked) : Left t (groupLaunch disable ans t) := by
  have herror := createJobs_error ans t.groupCommPreconnectHead t.asyncJobs
  unfold groupLaunch
  rcases hjobs : createJobs ans t.groupCommPreconnectHead t.asyncJobs with ⟨_ | e, jobs⟩
  · have hm : ∀ c, (leavePreconnect t.groupCommPreconnectHead t.comms c).marks
        = (decide (c ∈ t.groupCommHead), decide (c ∈ ([] : List Nat))) := by
      intro c
      have hc := Prod.ext_iff.1 (h.marks c)
      rw [leavePreconnect_marks, show (t.comms c).inGroup = _ from hc.1, show (t.comms c).inPreconnect = _ from hc.2]
      simp
    dsimp only
    split_ifs with hrun
    · exact ⟨rfl, fun _ => hm, fun he => absurd he (runJobs_error hrun)⟩
    · obtain ⟨h₁, h₂, h₃⟩ := launchTasks_left disable ans (t := { t with
        asyncJobs := jobs
        groupCommPreconnectHead := []
        comms := leavePreconnect t.groupCommPreconnectHead t.comms }) rfl hm
      exact ⟨h₁, h₂, h₃⟩
  · rw [hjobs] at herror
    exact ⟨rfl, fun _ => h.marks, fun he => absurd he (herror e rfl)⟩

/-- After an error the cleanup empties the lists and takes every mark back. -/
theorem groupCleanup_linked
    (hm : ∀ c, (t.comms c).marks = (decide (c ∈ t.groupCommHead), decide (c ∈ t.groupCommPreconnectHead))) :
    (groupResetJobState (groupCleanup t)).Linked := by
  refine ⟨rfl, ⟨nodup_nil, nodup_nil⟩, fun c => ?_⟩
  have hc := Prod.ext_iff.1 (hm c)
  have hl := Prod.ext_iff.1 (leavePreconnect_marks t.groupCommPreconnectHead t.comms c)
  simp only [HeteroComm.marks] at hc hl
  simp [groupResetJobState, groupCleanup, leave_marks, hl.1, hl.2, hc.1, hc.2]

/-- The end of a group keeps the lists, and the outermost one empties them, whatever the launch answers. -/
theorem groupEnd_spec (h : t.Linked) :
    (groupEnd disable ans t).2.Linked ∧ (0 < t.groupDepth → (groupEnd disable ans t).2.Closed) := by
  have hleft := groupLaunch_left disable ans (t := { t with groupDepth := t.groupDepth - 1 })
    ⟨h.jobs, h.nodup, h.marks⟩
  unfold groupEnd
  dsimp only
  split_ifs with hneg hlists hacc
  · exact ⟨⟨h.jobs, h.nodup, h.marks⟩, by omega⟩
  · obtain ⟨hjobs, hm⟩ := hleft.ended hacc
    exact ⟨⟨hjobs, ⟨nodup_nil, nodup_nil⟩, hm⟩, fun _ => ⟨(hleft.depth.trans hlists.1).ge, fun _ => ⟨rfl, rfl⟩⟩⟩
  · exact ⟨groupCleanup_linked (hleft.marks hacc), fun _ => ⟨(hleft.depth.trans hlists.1).ge, fun _ => ⟨rfl, rfl⟩⟩⟩
  · refine ⟨⟨h.jobs, h.nodup, h.marks⟩, fun hd => ⟨not_lt.1 hneg, fun hd => ?_⟩⟩
    by_contra hne
    exact hlists ⟨hd, by tauto⟩

end Launch

/-! ## The calls -/

section Calls
variable (disable : Bool) {t t₀ : Thread} {c : Nat}

theorem Thread.Linked.setComm {comm : HeteroComm} (h : t.Linked) (hm : comm.marks = (t.comms c).marks) :
    { t with comms := update t.comms c comm }.Linked :=
  ⟨h.jobs, h.nodup, fun d => (update_marks hm d).trans (h.marks d)⟩

theorem groupCommJoin_linked (h : t.Linked) : (groupCommJoin t c).Linked := by
  unfold groupCommJoin
  split_ifs with hin
  · exact h
  have hc := Prod.ext_iff.1 (h.marks c)
  refine ⟨h.jobs, ⟨nodup_cons.2 ⟨fun hmem => hin (hc.1.trans (decide_eq_true hmem)), h.nodup.1⟩, h.nodup.2⟩, fun d => ?_⟩
  by_cases hd : d = c
  · subst hd
    simpa [HeteroComm.marks] using hc.2
  · simpa [hd] using h.marks d

theorem groupCommPreconnect_linked (h : t.Linked) : (groupCommPreconnect t c).Linked := by
  unfold groupCommPreconnect
  split_ifs with hin
  · exact h
  have hc := Prod.ext_iff.1 (h.marks c)
  refine ⟨h.jobs, ⟨h.nodup.1, nodup_cons.2 ⟨fun hmem => hin (hc.2.trans (decide_eq_true hmem)), h.nodup.2⟩⟩, fun d => ?_⟩
  by_cases hd : d = c
  · subst hd
    simpa [HeteroComm.marks] using hc.1
  · simpa [hd] using h.marks d

theorem register_linked (h : t.Linked) (pattern : Pattern) (a : OpArgs) : (register t pattern a).Linked := by
  unfold register
  split_ifs
  · exact h
  · exact (groupCommPreconnect_linked h).setComm (by rfl)

theorem enqueue_linked (h : t.Linked) (pattern : Pattern) (a : OpArgs) : (enqueue t pattern a).Linked :=
  groupCommJoin_linked (h.setComm (by rfl))

theorem register_depth (t : Thread) (pattern : Pattern) (a : OpArgs) :
    (register t pattern a).groupDepth = t.groupDepth := by
  unfold register groupCommPreconnect
  split_ifs <;> rfl

theorem enqueue_depth (t : Thread) (pattern : Pattern) (a : OpArgs) : (enqueue t pattern a).groupDepth = t.groupDepth := by
  unfold enqueue groupCommJoin
  split_ifs <;> rfl

/-- A group is ended inside one. -/
def Inside (t : Thread) : Action → Prop
  | .stop _ => 0 < t.groupDepth
  | _ => True

theorem heteroOp_spec (h : t.Linked) (pattern : Pattern) (ans : Answers) (a : OpArgs) :
    (heteroOp pattern disable ans a t).2.Linked ∧ (t.Closed → (heteroOp pattern disable ans a t).2.Closed) := by
  have hstart : (groupStart t).Linked := ⟨h.jobs, h.nodup, h.marks⟩
  have hreg := register_linked hstart pattern a
  have hdepth : (register (groupStart t) pattern a).groupDepth = t.groupDepth + 1 := register_depth _ _ _
  unfold heteroOp
  dsimp only
  split_ifs
  · obtain ⟨hlinked, hclosed⟩ := groupEnd_spec disable ans (enqueue_linked hreg pattern a)
    refine ⟨hlinked, fun ht => hclosed ?_⟩
    rw [enqueue_depth, hdepth]
    exact Int.lt_add_one_of_le ht.1
  · refine ⟨hreg, fun ht => ?_⟩
    have hpos : 0 < (register (groupStart t) pattern a).groupDepth := hdepth.symm ▸ Int.lt_add_one_of_le ht.1
    exact ⟨hpos.le, fun hzero => absurd hzero hpos.ne'⟩
  · exact ⟨h, id⟩

theorem step_spec (h : t.Linked) (a : Action) :
    (step disable t a).2.Linked ∧ (Inside t a → t.Closed → (step disable t a).2.Closed) := by
  cases a with
  | start =>
    refine ⟨⟨h.jobs, h.nodup, h.marks⟩, fun _ ht => ?_⟩
    have hpos : 0 < t.groupDepth + 1 := Int.lt_add_one_of_le ht.1
    exact ⟨hpos.le, fun hzero => absurd hzero hpos.ne'⟩
  | stop ans =>
    obtain ⟨hlinked, hclosed⟩ := groupEnd_spec disable ans h
    exact ⟨hlinked, fun hin _ => hclosed hin⟩
  | send ans args =>
    obtain ⟨hlinked, hclosed⟩ := heteroOp_spec disable h .send ans args
    exact ⟨hlinked, fun _ => hclosed⟩
  | recv ans args =>
    obtain ⟨hlinked, hclosed⟩ := heteroOp_spec disable h .recv ans args
    exact ⟨hlinked, fun _ => hclosed⟩

/-- A call whose result is dropped. -/
def call (disable : Bool) (t : Thread) (a : Action) : Option Thread := some (step disable t a).2

/-- **The lists of a thread hold its marked communicators, each once, and no job is left, after every run of calls with
any answers. If every group end is inside a group, nothing is marked whenever no group is open.** -/
theorem groups_linked (h₀ : t₀.Linked) (hclosed : t₀.Closed) :
    (∀ t, Reach (call disable) (fun _ _ => True) t₀ t → t.Linked) ∧
      ∀ t, Reach (call disable) Inside t₀ t → 0 ≤ t.groupDepth ∧
        (t.groupDepth = 0 → t.groupCommHead = [] ∧ t.groupCommPreconnectHead = [] ∧
          ∀ c, (t.comms c).marks = (false, false)) := by
  refine ⟨fun t hr => hr.invariant h₀ ?_, fun t hr => ?_⟩
  · rintro s s' a hs - hstep
    obtain rfl := Option.some.inj hstep
    exact (step_spec disable hs a).1
  · obtain ⟨hlinked, hpos, hempty⟩ := hr.invariant (I := fun s => s.Linked ∧ s.Closed) ⟨h₀, hclosed⟩ (by
      rintro s s' a ⟨hs, hc⟩ hin hstep
      obtain rfl := Option.some.inj hstep
      exact ⟨(step_spec disable hs a).1, (step_spec disable hs a).2 hin hc⟩)
    refine ⟨hpos, fun hzero => ?_⟩
    obtain ⟨hhead, hpre⟩ := hempty hzero
    refine ⟨hhead, hpre, fun c => ?_⟩
    rw [hlinked.marks, hhead, hpre]
    rfl

end Calls

/-- A thread whose communicators have one rank. -/
def alone : Thread :=
  ⟨0, [], [], [], fun _ => ⟨0, 1, 1, [], fun _ _ _ => false, fun _ _ _ => false, fun _ _ => [], 0, false, false⟩, []⟩

/-- The job cannot be allocated, so the launch is refused. -/
def refused : Answers :=
  ⟨.success, fun _ => .systemError, fun _ => false, fun _ => .success, fun _ => .success, fun _ => .success,
    fun _ => .success, fun _ => .success, fun _ => .success, .success⟩

theorem groups_linked_refused :
    (groupEnd true refused (heteroSend true refused ⟨0, 0, 0, 1, 4, 0, 1, 0, 0⟩ (groupStart alone)).2).2.groupCommHead = [] ∧
      (groupEnd true refused (heteroSend true refused ⟨0, 0, 0, 1, 4, 0, 1, 0, 0⟩
        (groupStart alone)).2).1 = .systemError := by
  have hrun : Reach (call true) Inside alone
      (groupEnd true refused (heteroSend true refused ⟨0, 0, 0, 1, 4, 0, 1, 0, 0⟩ (groupStart alone)).2).2 :=
    .next (.stop refused) (.next (.send refused ⟨0, 0, 0, 1, 4, 0, 1, 0, 0⟩) (.next .start .init trivial rfl) trivial rfl)
      (show (0 : Int) < 1 by decide) rfl
  exact ⟨(((groups_linked true ⟨rfl, ⟨nodup_nil, nodup_nil⟩, fun _ => rfl⟩ ⟨le_rfl, fun _ => ⟨rfl, rfl⟩⟩).2 _ hrun).2
    (by decide)).1, by decide⟩

end FlagCX.Group
