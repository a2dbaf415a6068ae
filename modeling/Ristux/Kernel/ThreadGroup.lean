import Ristux.Kernel.Family
import Ristux.Kernel.Zombie

-- What `exit_group` does to the processes that share an address space, and to the others.

namespace Ristux.Kernel
open Relation List Lib Process Event State

namespace State
variable {s t : State} {pid m : Pid} {p q : Process} {reason r : ExitReason}

/-- The process is a zombie that ended for the reason `r`, or is not in the table. -/
def Ended (m : Pid) (r : ExitReason) (s : State) : Prop :=
  ∀ q, s.get m = some q → q.state = .zombie r

/-- After a process has become a zombie, its exit gives no zombie another reason. -/
theorem acts_exitWithReason_tail (reason : ExitReason) (hp : s.get pid = some p) :
    Acts (Spares (s.beginExit p reason).1) (s.beginExit p reason).1
      (s.exitWithReason pid reason).1 := by
  have hA := containsSends_acts (Spares (s.beginExit p reason).1)
  have hG : ∀ m r, (s.beginExit p reason).1.isLive m → Spares (s.beginExit p reason).1 m r :=
    fun _ _ => spares_of_isLive
  rw [exitWithReason_eq]
  refine exitStep_rel hA.toContainsWakes (fun _ held => .single (.held held)) hp
    (fun t ht c _ hc => ?_) (fun t c _ hz => acts_reap hz) fun acc hacc pgrp => ?_
  · exact acts_exitWithReason hG ht (hG c _ (shrinks_of_acts ht c hc))
  refine notifyOrphanedStoppedGroupWith_rel hA.toContainsSignals trivial trivial
    (fun t ht m hm => ?_) pgrp
  exact acts_exitWithReason hG (hA.trans hacc ht) (hG m _ (shrinks_of_acts hacc m hm))

theorem ended_exitWithReason_self (s : State) (pid : Pid) (reason : ExitReason) :
    Ended pid reason (s.exitWithReason pid reason).1 := by
  intro q hq
  cases hp : s.get pid with
  | none =>
    rw [exitWithReason_eq, exitStep, hp] at hq
    cases hp.symm.trans hq
  | some p =>
    refine (Changes.of_acts (V := Vfs.Steps) (acts_exitWithReason_tail reason hp)).zombie
      (z := p.zombified reason) ?_ rfl hq
    rw [get_beginExit (get_self hp), if_pos (pid_of_get hp).symm]

theorem Ended.exitWithReason (h : Ended m r s) (hm : m ≠ pid) :
    Ended m r (s.exitWithReason pid reason).1 := by
  cases hp : s.get pid with
  | none =>
    rw [exitWithReason_eq, exitStep, hp]
    exact h
  | some p =>
    intro q hq
    have htail := acts_exitWithReason_tail reason hp
    obtain ⟨z, hz, -⟩ := htail.back hq
    have hold : s.get m = some z := by
      rw [get_beginExit (get_self hp), if_neg (by rw [pid_of_get hp]; exact hm)] at hz
      exact hz
    exact (Changes.of_acts (V := Vfs.Steps) htail).zombie hz (h z hold) hq

theorem Ended.reapZombie (h : Ended m r s) (c : Pid) : Ended m r (s.reapZombie c) := by
  unfold State.reapZombie
  split
  · intro q hq
    rw [get_reap] at hq
    split at hq
    · cases hq
    · exact h q hq
  · exact h

/-- One turn of the first loop. -/
def exitMember (status : ℤ) (acc : State × WakeList) (member : Pid) : State × WakeList :=
  ((acc.1.exitWithReason member (.exited status)).1,
    acc.2.extend (acc.1.exitWithReason member (.exited status)).2)

theorem exitGroup_eq (hp : s.get pid = some p) (status : ℤ) : (s.exitGroup pid status).1 =
      ((s.internalMembers (s.groupMembers p.addressSpace)).foldl reapZombie
        ((exitOrder (s.groupMembers p.addressSpace) pid).foldl (exitMember status)
          (s.hold [p.addressSpace], .new)).1).letGo [p.addressSpace] := by
  rw [exitGroup, hp]
  rfl

theorem Ended.foldl_exitMember {l : List Pid}
    (h : Ended m r acc.1) (hm : m ∉ l ∨ r = .exited status) :
    Ended m r (l.foldl (exitMember status) acc).1 := by
  induction l generalizing acc with
  | nil => exact h
  | cons i l ih =>
    refine ih ?_ (hm.imp_left fun hml hmem => hml (mem_cons_of_mem _ hmem))
    by_cases hmi : m = i
    · subst hmi
      rw [hm.resolve_left (not_not.2 mem_cons_self)]
      exact ended_exitWithReason_self _ _ _
    · exact h.exitWithReason hmi

theorem ended_foldl_exitMember (status : ℤ) {l : List Pid} (hm : m ∈ l) (acc : State × WakeList) :
    Ended m (.exited status) (l.foldl (exitMember status) acc).1 := by
  induction l generalizing acc with
  | nil => exact absurd hm not_mem_nil
  | cons i l ih =>
    by_cases hml : m ∈ l
    · exact ih hml _
    obtain rfl := (mem_cons.1 hm).resolve_right hml
    have hself : Ended m (.exited status) (exitMember status acc m).1 :=
      ended_exitWithReason_self _ _ _
    exact hself.foldl_exitMember (.inr rfl)

theorem Ended.foldl_reapZombie (h : Ended m r s) (l : List Pid) :
    Ended m r (l.foldl State.reapZombie s) := by
  induction l generalizing s with
  | nil => exact h
  | cons c l ih => exact ih (h.reapZombie c)

theorem mem_groupMembers : m ∈ s.groupMembers space ↔
      ∃ q, s.get m = some q ∧ q.addressSpace = space ∧ q.state.isZombie = false := by
  simp only [groupMembers, mem_map, mem_filter, Bool.and_eq_true, decide_eq_true_eq,
    Bool.not_eq_true']
  constructor
  · rintro ⟨q, ⟨hq, h⟩, rfl⟩
    exact ⟨q, Keyed.get_of_mem hq, h⟩
  · rintro ⟨q, hq, h⟩
    exact ⟨q, ⟨Keyed.mem_of_get hq, h⟩, pid_of_get hq⟩

theorem mem_exitOrder_iff : m ∈ exitOrder members pid ↔ m ∈ members := by
  refine ⟨mem_exitOrder, fun hm => ?_⟩
  have hsorted : m ∈ members.insertionSort (· ≤ ·) := (mem_insertionSort _).2 hm
  unfold exitOrder
  dsimp only
  split
  · rw [mem_append, mem_singleton]
    by_cases h : m = pid
    · exact .inr h
    · exact .inl ((mem_erase_of_ne h).2 hsorted)
  · exact hsorted

/-- Each process that was alive ends with the status of the group, and each that was a zombie
keeps its own reason. -/
theorem ended_exitGroup (hp : s.get pid = some p) (status : ℤ) (hq : s.get m = some q)
    (hspace : q.addressSpace = p.addressSpace) :
    (q.state.isZombie = false → Ended m (.exited status) (s.exitGroup pid status).1) ∧
      ∀ r, q.state = .zombie r → Ended m r (s.exitGroup pid status).1 := by
  rw [exitGroup_eq hp]
  constructor
  · intro hlive
    refine Ended.foldl_reapZombie (ended_foldl_exitMember status ?_ _) _
    exact mem_exitOrder_iff.2 (mem_groupMembers.2 ⟨q, hq, hspace, hlive⟩)
  intro r hr
  have hself : Ended m r s := by
    intro q' hq'
    cases hq.symm.trans hq'
    exact hr
  refine Ended.foldl_reapZombie (Ended.foldl_exitMember hself (.inl fun hmem => ?_)) _
  obtain ⟨q', hq', -, hz⟩ := mem_groupMembers.1 (mem_exitOrder_iff.1 hmem)
  cases hq.symm.trans hq'
  rw [hr] at hz
  cases hz

theorem family_exitGroup (hs : s.Tidy) (hp : s.get pid = some p) (status : ℤ) :
    Family s (fun _ => False) (s.exitGroup pid status).1 := by
  have hF := (containsSends_keepsFamily s fun _ => False).toContainsSignals
  rw [exitGroup_eq hp]
  have hexits := hF.foldl (l := exitOrder (s.groupMembers p.addressSpace) pid)
    (fun acc m _ => show KeepsFamily s _ acc.1 (exitMember status acc m).1 from
      keepsFamily_exitFuel s _ _ acc.1 m _) (s.hold [p.addressSpace], .new)
    ⟨hs.family.init, hs.family.kept, hs.family.childless⟩
  have hreaps : ∀ t, KeepsFamily s (fun _ => False) t
      ((s.internalMembers (s.groupMembers p.addressSpace)).foldl reapZombie t) :=
    hF.foldl_state fun t c hc => ?_
  · obtain ⟨hinit, hkept, hchildless⟩ := hreaps _ hexits
    exact ⟨hinit, hkept, hchildless⟩
  have hinit : c ≠ initPid := by
    rintro rfl
    simp only [internalMembers, mem_map, mem_filter, Bool.and_eq_true, decide_eq_true_eq] at hc
    obtain ⟨q, ⟨hq, -, hparent⟩, hpid⟩ := hc
    rw [hs.init q (by rw [← hpid]; exact Keyed.get_of_mem hq)] at hparent
    cases hparent
  unfold reapZombie
  split
  · next hz => exact keepsFamily_reap hinit hz
  · exact hF.refl t

-- The table stays tidy in every run.

/-- Every process was there before, with the same parent, and no other has become a zombie. -/
theorem Tidy.of_back (h : s.Tidy) (hback : ∀ m q, t.get m = some q → ∃ p, s.get m = some p ∧
    q.parent = p.parent ∧ (q.state.isZombie → p.state.isZombie)) : t.Tidy := by
  refine ⟨fun q hq => ?_, fun c hc hz j q hq => ?_⟩
  · obtain ⟨p, hp, hparent, -⟩ := hback _ q hq
    rw [hparent, h.init p hp]
  · obtain ⟨p, hp, hparent, -⟩ := hback j q hq
    rw [hparent]
    refine h.childless c hc ?_ j p hp
    obtain ⟨z, hget, hzombie⟩ := isZombie_iff.1 hz
    obtain ⟨z', hget', -, hzombie'⟩ := hback c z hget
    exact isZombie_iff.2 ⟨z', hget', hzombie' hzombie⟩

theorem Tidy.of_get (h : s.Tidy) (hget : t.get = s.get) : t.Tidy :=
  h.of_back fun m q hq => ⟨q, by rw [← hget]; exact hq, rfl, id⟩

theorem Tidy.put (h : s.Tidy) (hp : s.get q.pid = some p) (hparent : q.parent = p.parent)
    (hz : q.state.isZombie → p.state.isZombie) : (s.put q).Tidy :=
  h.of_back fun _ _ hr => back_put (R := fun p q => q.parent = p.parent ∧
    (q.state.isZombie → p.state.isZombie)) hr (fun _ => ⟨rfl, id⟩) hp ⟨hparent, hz⟩

theorem Tidy.change (h : s.Tidy) (hc : Change V (fun _ _ => False) s t) : t.Tidy := by
  have hS := containsSends_keepsFamily s fun _ => False
  cases hc with
  | act hact =>
    cases hact with
    | wake hp hb => exact (hS.wake hp hb h.family).tidy
    | sigchld hp hi => exact (hS.sigchld hp hi h.family).tidy
    | adopt hp hold hparent => exact (hS.adopt hp hold hparent h.family).tidy
    | forget hp => exact (hS.forget hp h.family).tidy
    | receive hp signal current => exact (hS.receive hp trivial current h.family).tidy
    | stop hp hz => exact h.put hp rfl (by simp [ProcessState.isZombie])
    | resume hp hst => exact (hS.resume hp hst h.family).tidy
    | leave => exact h.of_get rfl
    | queue runQueue => exact h.of_get rfl
    | held held => exact h.of_get rfl
    | ready hp hb => exact (hS.ready hp hb h.family).tidy
    | woken hp hw => exact (hS.woken hp hw h.family).tidy
    | reap hp hz =>
      refine h.of_back fun m q hq => ?_
      rw [get_reap] at hq
      split at hq
      · cases hq
      · exact ⟨q, hq, rfl, id⟩
    | zombify hp hg => exact hg.elim
  | memory spaces nextSpace phys => exact h.of_get rfl
  | files hv => exact h.of_get rfl
  | touch hp hq =>
    refine h.put (by rw [hq.pid]; exact hp) hq.parent fun hz => ?_
    rw [hq.after] at hz
    cases hz
  | reported hp => exact h.put hp rfl id
  | @focus pid hrun =>
    refine h.of_back fun m q hq => ?_
    rw [get_setCurrent] at hq
    obtain ⟨p, hp, rfl⟩ := Option.map_eq_some_iff.1 hq
    refine ⟨p, hp, rfl, fun hz => ?_⟩
    dsimp only [runningState] at hz
    split_ifs at hz
    · cases hz
    · cases hz
    · exact hz

theorem Tidy.changes (h : s.Tidy) (hc : Changes V (fun _ _ => False) s t) : t.Tidy := by
  induction hc with
  | refl => exact h
  | tail _ hc ih => exact ih.change hc

/-- The child of a live process has a parent that has not ended. -/
theorem Tidy.of_born (h : s.Tidy) (hs : s.Sane) {child : Process} (hp : s.currentProcess = some p)
    (hborn : Born s t p child) : t.Tidy := by
  obtain ⟨hget, hlive⟩ := hs.currentLive.currentProcess hp
  have hfresh := hs.fresh _ p hget
  have hpos := hs.positive _ p hget
  refine ⟨fun q hq => ?_, fun c hc hz j q hq hchild => ?_⟩
  · have hinit : initPid ≠ s.nextPid :=
      Nat.ne_of_lt (Nat.lt_of_le_of_lt (Nat.pos_of_ne_zero hpos) hfresh)
    rw [hs.get_born hborn, if_neg hinit] at hq
    exact h.init q hq
  obtain ⟨z, hzget, hzombie⟩ := isZombie_iff.1 hz
  have hzc : s.isZombie c := by
    rw [hs.get_born hborn] at hzget
    split at hzget
    · cases hzget
      rw [hborn.state] at hzombie
      cases hzombie
    · exact isZombie_iff.2 ⟨z, hzget, hzombie⟩
  rw [hs.get_born hborn] at hq
  split at hq
  · cases hq
    rw [hborn.childOf] at hchild
    obtain ⟨r, hr, hrz⟩ := isZombie_iff.1 hzc
    rw [← Option.some.inj hchild] at hr
    cases hget.symm.trans hr
    rw [hlive] at hrz
    cases hrz
  · exact h.childless c hc hzc j q hq hchild

theorem Tidy.processExit (h : s.Tidy) (pid : Pid) (reason : ExitReason) :
    (s.processExit pid reason).Tidy := by
  have hS := containsSends_keepsFamily s fun _ => False
  have hexit : Family s (fun _ => False) (s.exitWithReason pid reason).1 :=
    keepsFamily_exitFuel s _ _ s pid reason h.family
  exact (wakeProcesses_rel hS _ _ (wakeIoWaiters_rel hS _ hexit)).tidy

theorem Tidy.mapWriteVfsError (h : s.Tidy) (e : VfsError) : (s.mapWriteVfsError e).2.Tidy := by
  unfold State.mapWriteVfsError
  split
  · split
    · exact (send_rel (containsSends_keepsFamily s fun _ => False) trivial id
        (Q := fun _ _ => True) (fun _ p u _ _ _ _ _ => keepsFamily_exitFuel s _ _ u p.pid _)
        (fun _ _ => trivial) h.family).tidy
    · exact h
  · exact h

theorem Tidy.exec (h : s.Tidy) (hs : s.Sane) (e : Event) : (e.exec s).Tidy := by
  have hlive := hs.currentLive
  have hquiet : Changes Vfs.Steps (fun _ _ => False) s (e.exec s) → (e.exec s).Tidy := h.changes
  have hsend : e.IsSend → (e.exec s).Tidy := fun hsend =>
    (Event.send_rel (containsSends_keepsFamily s fun _ => False) hsend (fun _ _ => trivial)
      (fun _ _ p u _ _ _ _ _ => keepsFamily_exitFuel s _ _ u p.pid _) h.family).tidy
  have hcurrent : ∀ f : Pid → State, (∀ pid, (f pid).Tidy) → (s.withCurrent f).Tidy := by
    intro f hf
    unfold withCurrent
    cases s.current with
    | none => exact h
    | some pid => exact hf pid
  by_cases he : e.Tame
  · cases e with
    | fork root => exact he.elim
    | thread entry arg stackTop clearChildTid => exact he.elim
    | setsid => exact he.elim
    | setpgid pid pgid => exact he.elim
    | execve image =>
      exact hquiet (changes_withCurrent fun _ hcur => changes_execForUser hlive hcur image)
    | exit status => exact hcurrent _ fun pid => h.processExit pid _
    | exitGroup status =>
      refine hcurrent _ fun pid => ?_
      have hS := containsSends_keepsFamily s fun _ => False
      have hexit : Family s (fun _ => False) (s.exitGroup pid status).1 := by
        cases hp : s.get pid with
        | none =>
          rw [exitGroup, hp]
          exact h.family
        | some p => exact family_exitGroup h hp status
      exact (wakeProcesses_rel hS _ _ (wakeIoWaiters_rel hS _ hexit)).tidy
    | fault status =>
      simp only [Event.exec, killCurrent]
      split
      · exact h
      · exact h.processExit _ _
    | kill pid sig => exact hsend trivial
    | sysKill pid sig => exact hsend trivial
    | signalPgrp pgrp signal => exact hsend trivial
    | sendPgrp pgrp signal => exact hsend trivial
    | deliver caught =>
      rcases deliverPendingSignal_cases hlive caught with hc | ⟨pid, reason, -, heq⟩
      · exact hquiet hc
      · rw [Event.exec, heq]
        exact (h.changes (takePendingSignalCurrent_spec (V := Vfs.Steps) hlive).1).processExit pid reason
    | memory fileRoom pipeRoom =>
      exact hquiet (changes_files (.single (.memory s.vfs fileRoom pipeRoom)))
    | close fd => exact hquiet (changes_userClose hlive fd)
    | dup fd => exact hquiet (changes_userDup hlive fd)
    | dup2 fd target => exact hquiet (changes_userDup2 hlive fd target)
    | dup3 fd target flags => exact hquiet (changes_linuxDup3 hlive fd target flags)
    | pipe2 pipefd flags => exact hquiet (changes_linuxPipe2 hlive pipefd flags)
    | read fd buf len other => exact hquiet (changes_linuxRead hlive fd buf len other)
    | write fd buf len other =>
      obtain ⟨u, hu, heq | ⟨error, heq⟩⟩ := linuxWrite_changes hlive fd buf len other
      · rw [Event.exec, heq]
        exact h.changes hu
      · rw [Event.exec, heq]
        exact (h.changes hu).mapWriteVfsError error
    | _ => exact hquiet (changes_quiet trivial hlive)
  · rcases not_tame he with hsame | ⟨p, child, hp, hborn⟩ | ⟨p, q, heq, hp, hmove⟩
    · exact h.of_get (by funext i; rw [get, hsame.processes]; rfl)
    · exact h.of_born hs hp hborn
    · rw [heq]
      exact h.put (by rw [hmove.pid]; exact hp) hmove.parent (by rw [hmove.state]; exact id)

theorem tidy_boot (root : ℕ) (phys : Memory.PhysicalMemory) : (boot root phys).Tidy := by
  have hinit : ∀ i p, (boot root phys).get i = some p → p.parent = none := by
    intro i p hp
    rw [mem_singleton.1 (Keyed.mem_of_get hp)]
    rfl
  refine ⟨hinit _, fun c _ _ j q hq hchild => ?_⟩
  rw [hinit j q hq] at hchild
  cases hchild

/-- In every state that the kernel reaches only init, which has no parent, is the parent of a
process after it has ended. -/
theorem tidy_run (root : ℕ) (phys : Memory.PhysicalMemory) (events : List Event) :
    (run (boot root phys) events).Tidy := by
  suffices ∀ s : State, s.Sane → s.Tidy → (run s events).Tidy from
    this _ (sane_boot root phys) (tidy_boot root phys)
  induction events with
  | nil => exact fun _ _ h => h
  | cons e events ih => exact fun s hs h => ih _ (hs.exec e) (h.exec hs e)

/-- A change that the end of the group `member` makes. Those to other processes are a wake, a
SIGCHLD, the reparenting to init, and the signals to an orphaned group with stopped members. -/
inductive GroupStep (member : Pid → Prop) (status : ℤ) : State → State → Prop where
  | exit {s : State} {p : Process} (h : s.get p.pid = some p) (hm : member p.pid) :
      GroupStep member status s (s.zombify p (.exited status)).1
  | reap {s : State} {pid : Pid} (hm : member pid) : GroupStep member status s (s.reap pid)
  | held {s : State} (held : List ℕ) : GroupStep member status s { s with held := held }
  | wake {s : State} {p : Process} {child : Pid} (h : s.get p.pid = some p)
      (hb : p.state = .blocked (.waitChild child)) :
      GroupStep member status s (s.put { p with state := .ready })
  | sigchld {s : State} {p : Process} (h : s.get p.pid = some p)
      (hi : p.isIgnoredSignal Signal.child.defaultStatus = false) :
      GroupStep member status s (s.put (p.queueSignal Signal.child.defaultStatus))
  | adopt {s : State} {p : Process} {old : Pid} {parent : Option Pid} (h : s.get p.pid = some p)
      (hold : p.parent = some old) (hparent : parent = some initPid ∨ parent = none) :
      GroupStep member status s (s.put { p with parent := parent })
  | hangup {s : State} {pgrp : Pid} {wake : WakeList} (horphaned : s.processGroupIsOrphaned pgrp)
      (hstopped : s.processGroupHasStoppedMember pgrp) :
      GroupStep member status s (notifyOrphanedStoppedGroupWith exitWithReason (s, wake) pgrp).1

/-- The changes, and that they are such that an exit may make. -/
def GroupSteps (member : Pid → Prop) (status : ℤ) (s t : State) : Prop :=
  Acts (fun _ _ => True) s t ∧ ReflTransGen (GroupStep member status) s t

variable {status : ℤ}

theorem containsWakes_groupSteps : ContainsWakes (GroupSteps member status) := by
  have hA := containsSends_acts fun _ _ => True
  exact {
    refl := fun s => ⟨hA.refl s, .refl⟩
    trans := fun h h' => ⟨hA.trans h.1 h'.1, h.2.trans h'.2⟩
    wake := fun h hb => ⟨hA.wake h hb, .single (.wake h hb)⟩
    sigchld := fun h hi => ⟨hA.sigchld h hi, .single (.sigchld h hi)⟩
    adopt := fun h hold hparent => ⟨hA.adopt h hold hparent, .single (.adopt h hold hparent)⟩ }

theorem groupSteps_held (s : State) (held : List ℕ) :
    GroupSteps member status s { s with held := held } :=
  ⟨.single (.held held), .single (.held held)⟩

theorem groupSteps_notify (acc : State × WakeList) (pgrp : Pid) :
    GroupSteps member status acc.1 (notifyOrphanedStoppedGroupWith exitWithReason acc pgrp).1 := by
  have hA := containsSends_acts fun _ _ => True
  refine ⟨notifyOrphanedStoppedGroupWith_rel hA.toContainsSignals trivial trivial (fun t _ m _ =>
    acts_exitWithReason (fun _ _ _ => trivial) (hA.refl t) trivial) pgrp, ?_⟩
  by_cases h : acc.1.processGroupIsOrphaned pgrp && acc.1.processGroupHasStoppedMember pgrp
  · rw [Bool.and_eq_true] at h
    exact .single (.hangup h.1 h.2)
  obtain ⟨s, wake⟩ := acc
  rw [notifyOrphanedStoppedGroupWith]
  dsimp only
  rw [if_neg h]

/-- The exit of a member ends only members, of which there are the processes of its address
space. -/
theorem groupSteps_exitWithReason (space n : ℕ) : ∀ s pid, s.depth pid < n → member pid →
    (∀ i q, s.get i = some q → q.addressSpace = space → member i) →
    (∀ q, s.get pid = some q → q.addressSpace = space) →
    GroupSteps member status s (s.exitWithReason pid (.exited status)).1 := by
  have hR : ContainsWakes (GroupSteps member status) := containsWakes_groupSteps
  induction n with
  | zero => exact fun _ _ h => absurd h (Nat.not_lt_zero _)
  | succ n ih =>
    intro s pid hn hm hspace hpid
    rw [exitWithReason_eq]
    cases hp : s.get pid with
    | none =>
      rw [exitStep, hp]
      exact hR.refl s
    | some p =>
      have hz : GroupSteps member status s (s.beginExit p (.exited status)).1 :=
        ⟨.tail (.single (.held _)) (.zombify (get_self hp) trivial),
          .tail (.single (.held _)) (.exit (get_self hp) (by rw [pid_of_get hp]; exact hm))⟩
      have hchild : ∀ c ∈ (s.beginExit p (.exited status)).1.sameSpaceChildren pid p.addressSpace,
          ∃ q, s.get c = some q ∧ q.addressSpace = space := by
        intro c hc
        obtain ⟨q, hq, -, hqs⟩ := of_mem_sameSpaceChildren hc
        obtain ⟨q₀, hq₀, hself⟩ := hz.1.back hq
        exact ⟨q₀, hq₀, by rw [← hself.addressSpace, hqs, hpid p hp]⟩
      have hmember : ∀ c ∈ (s.beginExit p (.exited status)).1.sameSpaceChildren pid p.addressSpace,
          member c := by
        intro c hc
        obtain ⟨q, hq, hqs⟩ := hchild c hc
        exact hspace c q hq hqs
      refine hR.trans hz (exitStep_rel hR groupSteps_held hp (fun t ht c hc hlive => ?_)
        (fun t c hc hzc => ⟨acts_reap hzc, .single (.reap (hmember c hc))⟩)
        fun acc _ pgrp => groupSteps_notify acc pgrp)
      have hst := (hR.trans hz ht).1
      refine ih t c ?_ (hmember c hc) (fun i q hq hqs => ?_) fun q hq => ?_
      · have hlt := live_beginExit_lt_depth hp (.exited status)
        have hle := (shrinks_of_acts ht.1).live_le
        rw [depth_of_isLive hlive]
        omega
      · obtain ⟨q₀, hq₀, hself⟩ := hst.back hq
        exact hspace i q₀ hq₀ (by rw [← hself.addressSpace, hqs])
      · obtain ⟨q₀, hq₀, hself⟩ := hst.back hq
        obtain ⟨q', hq', hqs⟩ := hchild c hc
        cases hq'.symm.trans hq₀
        rw [hself.addressSpace, hqs]

/-- The processes that share the address space of `p`. -/
def Shares (s : State) (p : Process) (m : Pid) : Prop :=
  ∃ q, s.get m = some q ∧ q.addressSpace = p.addressSpace

theorem groupSteps_exitGroup (hp : s.get pid = some p) (status : ℤ) :
    ReflTransGen (GroupStep (s.Shares p) status) s (s.exitGroup pid status).1 := by
  have hR : ContainsWakes (GroupSteps (s.Shares p) status) := containsWakes_groupSteps
  rw [exitGroup_eq hp]
  have hmember : ∀ m ∈ s.groupMembers p.addressSpace, s.Shares p m := by
    intro m hm
    obtain ⟨q, hq, hqs, -⟩ := mem_groupMembers.1 hm
    exact ⟨q, hq, hqs⟩
  have hexits : GroupSteps (s.Shares p) status s
      ((exitOrder (s.groupMembers p.addressSpace) pid).foldl (exitMember status)
        (s.hold [p.addressSpace], .new)).1 := by
    refine hR.foldl_from (fun acc hacc m hm => ?_) (groupSteps_held s _)
    have hm' := hmember m (mem_exitOrder hm)
    obtain ⟨q₀, hq₀, hqs₀⟩ := hm'
    refine groupSteps_exitWithReason p.addressSpace _ acc.1 m (Nat.lt_succ_self _)
      ⟨q₀, hq₀, hqs₀⟩ (fun i q hq hqs => ?_) fun q hq => ?_
    · obtain ⟨q', hq', hself⟩ := hacc.1.back hq
      exact ⟨q', hq', by rw [← hself.addressSpace, hqs]⟩
    obtain ⟨q', hq', hself⟩ := hacc.1.back hq
    cases hq₀.symm.trans hq'
    rw [hself.addressSpace, hqs₀]
  refine (hR.trans hexits (hR.trans (hR.foldl_state (fun t c hc => ?_) _) (groupSteps_held _ _))).2
  have hc' : s.Shares p c := by
    simp only [internalMembers, mem_map, mem_filter, Bool.and_eq_true, decide_eq_true_eq] at hc
    obtain ⟨q, ⟨-, hq, -⟩, rfl⟩ := hc
    exact hmember _ hq
  unfold reapZombie
  split
  · next hz => exact ⟨acts_reap hz, .single (.reap hc')⟩
  · exact hR.refl t

/-- What `exit_group` leaves of the processes that share the address space of the caller, of the
parents they were, and of all others. -/
theorem exitGroup_complete (hp : s.get pid = some p) (status : ℤ) :
    (∀ m q, s.Shares p m → (s.exitGroup pid status).1.get m = some q → q.state.isZombie) ∧
    (∀ m q q', s.get m = some q → q.addressSpace = p.addressSpace →
      (s.exitGroup pid status).1.get m = some q' →
      q'.state = if q.state.isZombie then q.state else .zombie (.exited status)) ∧
    (s.Tidy → ∀ j q c, (s.exitGroup pid status).1.get j = some q → q.parent = some c →
      (s.get c).isSome → ((s.exitGroup pid status).1.get c).isSome) ∧
    ReflTransGen (GroupStep (s.Shares p) status) s (s.exitGroup pid status).1 := by
  have hstate : ∀ m q q', s.get m = some q → q.addressSpace = p.addressSpace →
      (s.exitGroup pid status).1.get m = some q' →
      q'.state = if q.state.isZombie then q.state else .zombie (.exited status) := by
    intro m q q' hq hspace hq'
    obtain ⟨hlive, hzombie⟩ := ended_exitGroup hp status hq hspace
    cases hst : q.state with
    | zombie r => exact hzombie r hst q' hq'
    | _ => exact hlive (by rw [hst]; rfl) q' hq'
  refine ⟨?_, hstate, fun hs j q c hq hc hin => ?_, groupSteps_exitGroup hp status⟩
  · rintro m q' ⟨q, hq, hspace⟩ hq'
    rw [hstate m q q' hq hspace hq']
    split
    · next hz => exact hz
    · rfl
  have hfam := family_exitGroup hs hp status
  by_cases hinit : c = initPid
  · rw [hinit] at hin ⊢
    exact hfam.kept hin
  by_contra hnone
  refine hfam.childless c hinit id (.inr ⟨hin, ?_⟩) j q hq hc
  exact Option.not_isSome_iff_eq_none.1 hnone

/-- Process 2 makes the thread 3. -/
def twoThreads : List Event := [.enter 1, .fork 0, .enter 2, .thread 0 0 0 0]

/-- After its end no process has a parent that is gone. -/
theorem exitGroup_complete_twoThreads :
    (((run booted twoThreads).exitGroup 2 5).1.get 2).map state = some (.zombie (.exited 5)) ∧
      ∀ j q c, ((run booted twoThreads).exitGroup 2 5).1.get j = some q → q.parent = some c →
        ((run booted twoThreads).get c).isSome →
        (((run booted twoThreads).exitGroup 2 5).1.get c).isSome := by
  have hlive : ((run booted twoThreads).get 2).map state = some .running := by
    decide +kernel
  have hin : (((run booted twoThreads).exitGroup 2 5).1.get 2).isSome := by decide +kernel
  obtain ⟨p, hp, hst⟩ := Option.map_eq_some_iff.1 hlive
  obtain ⟨q, hq⟩ := Option.isSome_iff_exists.1 hin
  obtain ⟨-, hstate, hparents, -⟩ := exitGroup_complete hp 5
  refine ⟨?_, hparents (tidy_run 0 _ twoThreads)⟩
  rw [hq, Option.map_some, hstate 2 p q hp rfl hq, hst]
  rfl

/-- The thread 3 of process 2 makes the thread 4 and runs another program; then 4 exits. -/
def threadLeft : List Event :=
  twoThreads ++ [.enter 3, .thread 0 0 0 0, .execve ⟨0, 0, 0, 0, fun _ => none, [], fun _ => 0⟩, .enter 4,
    .exit 3, .enter 2]

/-- A table in which a zombie, 3, is still the parent of another process. -/
def untidy : State :=
  { booted with processes := ⟨[newUser 2 none 1 .root,
      { newUser 3 (some 2) 1 .root with state := .zombie (.exited 0) },
      newUser 4 (some 3) 2 .root], by decide⟩ }

/-- A table in which init is a thread of another process and has a child. -/
def parentedInit : State :=
  { booted with processes := ⟨[newUser 1 (some 2) 1 .root, newUser 2 none 1 .root,
      newUser 3 (some 1) 2 .root], by decide⟩ }

/-- A thread that exited on its own keeps its status, which it reports to a parent outside the
group; and a zombie, or init, is reaped while it is the parent of another process. -/
theorem exitGroup_keeps_status : (((run booted threadLeft).get 4).map addressSpace =
        ((run booted threadLeft).get 2).map addressSpace ∧
      ((run booted threadLeft).get 3).map addressSpace ≠
        ((run booted threadLeft).get 2).map addressSpace ∧
      (((run booted threadLeft).exitGroup 2 5).1.get 4).map
        (fun q => (q.state, q.parent)) = some (.zombie (.exited 3), some 3)) ∧
    ((untidy.get 3).isSome ∧ ((untidy.exitGroup 2 5).1.get 3).isNone ∧
      ((untidy.exitGroup 2 5).1.get 4).map parent = some (some 3)) ∧
    ((parentedInit.get 1).isSome ∧ ((parentedInit.exitGroup 2 5).1.get 1).isNone ∧
      ((parentedInit.exitGroup 2 5).1.get 3).map parent = some (some 1)) := by
  decide +kernel

end State
end Ristux.Kernel
