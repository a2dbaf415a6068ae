import Ristux.Kernel.Changes
import Ristux.Kernel.PipeEnds

-- Every event other than those that make a process or move one to another group is a sequence of
-- changes: those of `Act`, a change of one live process, the choice of the process to run, and
-- changes outside the table.

namespace Ristux.Kernel
open Relation Option List Process State
open Memory (PhysicalMemory)

/-- A change that leaves a process alive, where it is in the family of processes. -/
structure Process.Touched (p q : Process) : Prop where
  pid : q.pid = p.pid
  parent : q.parent = p.parent
  pgrp : q.pgrp = p.pgrp
  sid : q.sid = p.sid
  before : p.state.isZombie = false
  after : q.state.isZombie = false
  signals : p.Steps q

/-- One change that an event makes. The open files change as `V` allows. -/
inductive Change (V : Vfs → Vfs → Prop) (G : Pid → ExitReason → Prop) : State → State → Prop where
  | act {s t : State} (h : Act G s t) : Change V G s t
  | memory {s : State} (spaces : ℕ → AddressSpace) (nextSpace : ℕ) (phys : PhysicalMemory) :
      Change V G s { s with spaces := spaces, nextSpace := nextSpace, phys := phys }
  | files {s : State} {vfs : Vfs} (h : V s.vfs vfs) : Change V G s { s with vfs := vfs }
  | touch {s : State} {p q : Process} (h : s.get p.pid = some p) (hq : p.Touched q) :
      Change V G s (s.put q)
  | reported {s : State} {p : Process} (h : s.get p.pid = some p) :
      Change V G s (s.put { p with continuedReportPending := false })
  | focus {s : State} {pid : Pid} (h : s.isRunnable pid) : Change V G s (s.setCurrent pid)

def Changes (V : Vfs → Vfs → Prop) (G : Pid → ExitReason → Prop) : State → State → Prop :=
    ReflTransGen (Change V G)

variable {G : Pid → ExitReason → Prop} {s t : State} {reason : ExitReason} {v : Vfs} {e : Event}

theorem Changes.of_acts (h : Acts G s t) : Changes V G s t :=
  ReflTransGen.mono (fun _ _ => Change.act) _ _ h

namespace State
variable {s₀ s t : State} {pid : Pid}
  {p q : Process}

/-- The running process is alive. -/
def CurrentLive (s : State) : Prop :=
  ∀ pid p, s.current = some pid → s.get pid = some p → p.state.isZombie = false

theorem CurrentLive.currentProcess (hs : s.CurrentLive) (h : s.currentProcess = some p) :
    s.get p.pid = some p ∧ p.state.isZombie = false := by
  obtain ⟨i, hi, hp⟩ := bind_eq_some_iff.1 h
  exact ⟨get_self hp, hs i p hi hp⟩

theorem changes_put (h : s.get p.pid = some p) (hq : p.Touched q) : Changes V G s (s.put q) :=
  .single (.touch h hq)

theorem changes_memory (s : State) (spaces : ℕ → AddressSpace) (nextSpace : ℕ)
    (phys : PhysicalMemory) :
    Changes V G s { s with spaces := spaces, nextSpace := nextSpace, phys := phys } :=
  .single (.memory spaces nextSpace phys)

variable {vfs : Vfs}

theorem changes_files (h : V s.vfs vfs) : Changes V G s { s with vfs := vfs } :=
  .single (.files h)

theorem changes_world (h : V s.vfs vfs) (spaces : ℕ → AddressSpace) (nextSpace : ℕ)
    (phys : PhysicalMemory) : Changes V G s
      { s with spaces := spaces, nextSpace := nextSpace, phys := phys, vfs := vfs } :=
  (changes_memory s spaces nextSpace phys).trans (changes_files h)

theorem changes_modifyCurrent (hs : s.CurrentLive)
    (hf : ∀ p : Process, p.state.isZombie = false → p.Touched (f p)) :
    Changes V G s (s.modifyCurrent f) := by
  unfold modifyCurrent
  split
  · next pid hcur =>
    unfold modify
    split
    · next p hp => exact changes_put (get_self hp) (hf p (hs pid p hcur hp))
    · exact .refl
  · exact .refl

theorem not_isZombie_of_isRunnable (h : s.isRunnable pid) (hp : s.get pid = some p) :
    p.state.isZombie = false := by
  simp only [isRunnable, hp, any_some, decide_eq_true_eq] at h
  rw [h]
  rfl

theorem changes_saveSyscallFrame (hs : s.CurrentLive) (hcur : s.current = some pid)
    (frame : Frame) : Changes V G s (s.saveSyscallFrame pid frame) := by
  unfold saveSyscallFrame modify
  split
  · next p hp =>
    have hz := hs pid p hcur hp
    exact changes_put (get_self hp) ⟨rfl, rfl, rfl, rfl, hz, hz, .of_same rfl rfl rfl rfl rfl⟩
  · exact .refl

theorem changes_markReady (s : State) (pid : Pid) : Changes V G s (s.markReady pid).2 := by
  unfold markReady
  split
  · exact .refl
  next p hp =>
  split
  · exact .refl
  next hz =>
  have hz : p.state.isZombie = false := by simp_all
  exact changes_put (get_self hp) ⟨rfl, rfl, rfl, rfl, hz, rfl, .of_same rfl rfl rfl rfl rfl⟩

theorem isRunnable_of_dispatchLocal (h : s.dispatchLocal.1 = some pid) : s.isRunnable pid := by
  unfold dispatchLocal at h
  split at h
  · simp at h
  next i rest hd =>
  cases h
  have hne : s.runQueue.dropWhile (fun pid => !s.isRunnable pid) ≠ [] := by simp [hd]
  have hhead := head_dropWhile_not (fun pid => !s.isRunnable pid) hne
  simpa [hd] using hhead

theorem acts_dispatchLocal (s : State) : Acts G s s.dispatchLocal.2 := by
  unfold dispatchLocal
  split <;> exact .single (.queue _)

theorem currentLive_put (hs : s.CurrentLive) (hp : s.get q.pid = some p)
    (hq : q.state.isZombie → p.state.isZombie) : (s.put q).CurrentLive := by
  intro i r hi hr
  rw [get_put] at hr
  split at hr
  · next hiq =>
    subst hiq
    rw [hp] at hr
    cases hr
    by_contra hz
    have := hs _ p hi hp
    simp [hq (by simpa using hz)] at this
  · exact hs i r hi hr

theorem currentLive_of_act (hs : s.CurrentLive) (h : Act G s t) : t.CurrentLive := by
  intro i q hi hq
  obtain ⟨p, hp, -, hlive⟩ := h.acted hq
  exact hlive hi (hs i p (h.current hi) hp)

/-- Choosing the process to run changes only the table. -/
theorem setCurrent_eq (s : State) (pid : Pid) : ∃ processes,
    s.setCurrent pid = { s with current := some pid, processes := processes } := by
  have hfold : ∀ (l : List Pid) (t : State), ∃ processes, l.foldl (fun s i => s.modify i fun p =>
      { p with state := runningState pid p }) t = { t with processes := processes } := by
    intro l
    induction l with
    | nil => exact fun t => ⟨t.processes, rfl⟩
    | cons j l ih =>
      intro t
      obtain ⟨processes, heq⟩ := ih (t.modify j fun p => { p with state := runningState pid p })
      refine ⟨processes, ?_⟩
      rw [foldl_cons, heq]
      unfold modify
      split <;> rfl
  exact hfold s.pids _

theorem currentLive_setCurrent (s : State) (pid : Pid) : (s.setCurrent pid).CurrentLive := by
  intro i r hi hr
  obtain ⟨processes, heq⟩ := setCurrent_eq s pid
  rw [heq] at hi
  cases hi
  rw [get_setCurrent] at hr
  obtain ⟨p, hp, rfl⟩ := map_eq_some_iff.1 hr
  simp [runningState, pid_of_get hp, ProcessState.isZombie]

theorem currentLive_of_changes (hs : s.CurrentLive) (h : Changes V G s t) : t.CurrentLive := by
  induction h with
  | refl => exact hs
  | tail _ h ih =>
    cases h with
    | act h => exact currentLive_of_act ih h
    | memory spaces nextSpace phys => exact ih
    | files h => exact ih
    | @touch p q h hq =>
      refine currentLive_put ih (by rw [hq.pid]; exact h) fun hz => ?_
      rw [hq.after] at hz
      exact absurd hz (by simp)
    | reported h => exact currentLive_put ih h id
    | focus h => exact currentLive_setCurrent _ _

end State

/-- What a change can do to a process of the table. -/
structure Process.Changed (G : Pid → ExitReason → Prop) (p q : Process) : Prop where
  pgrp : q.pgrp = p.pgrp
  sid : q.sid = p.sid
  signals : p.Steps q
  reason : p.KeepsReason G q

theorem Change.changed (h : Change V G s t) (hq : t.get i = some q) :
    ∃ p, s.get i = some p ∧ p.Changed G q := by
  have hrefl : ∀ p : Process, p.Changed G p :=
    fun p => ⟨rfl, rfl, .refl p, .of_state fun _ _ => rfl⟩
  cases h with
  | act h =>
    obtain ⟨p, hp, ⟨hself, hsteps, hreason⟩, -⟩ := h.acted hq
    exact ⟨p, hp, hself.pgrp, hself.sid, hsteps, hreason⟩
  | memory spaces nextSpace phys => exact ⟨q, hq, hrefl q⟩
  | files h => exact ⟨q, hq, hrefl q⟩
  | @touch p r h hr =>
    refine back_put hq hrefl (by rw [hr.pid]; exact h)
      ⟨hr.pgrp, hr.sid, hr.signals, .of_state fun r' hr' => ?_⟩
    have hz := hr.before
    rw [hr'] at hz
    cases hz
  | reported h =>
    exact back_put hq hrefl h
      ⟨rfl, rfl, .of_same rfl rfl rfl rfl rfl, .of_state fun _ _ => rfl⟩
  | @focus pid h =>
    rw [get_setCurrent] at hq
    obtain ⟨p, hp, rfl⟩ := map_eq_some_iff.1 hq
    refine ⟨p, hp, rfl, rfl, .of_same rfl rfl rfl rfl rfl, .of_state fun r hr => ?_⟩
    have hne : p.pid ≠ pid := by
      rintro rfl
      have hz := not_isZombie_of_isRunnable h (get_self hp)
      rw [hr] at hz
      cases hz
    simp [runningState, hr, hne]

namespace State
variable {s₀ s t : State} {pid : Pid}
  {p q : Process} {vfs : Vfs}

/-- A call that fails when there is no current process. -/
theorem changes_currentProcess {f : Process → α × State} (hs : s.CurrentLive)
    (h : ∀ p, s.get p.pid = some p → p.state.isZombie = false → Changes V G s (f p).2) :
    Changes V G s (match s.currentProcess with | none => (r, s) | some p => f p).2 := by
  split
  · exact .refl
  next p hp =>
  obtain ⟨hget, hz⟩ := hs.currentProcess hp
  exact h p hget hz

theorem changes_withCurrent (h : ∀ pid, s.current = some pid → Changes V G s
    (f pid)) : Changes V G s (s.withCurrent f) := by
  unfold withCurrent
  cases hc : s.current with
  | none => exact .refl
  | some pid => exact h pid hc

theorem changes_enter (s : State) (pid : Pid) : Changes V G s (s.enter pid) := by
  unfold enter
  split
  · next h => exact .single (.focus h)
  · exact .refl

theorem changes_dispatch (s : State) : Changes V G s s.dispatch := by
  have hd := Changes.of_acts (V := V) (acts_dispatchLocal (G := G) s)
  unfold dispatch
  split
  · next t ht => rw [ht] at hd; exact hd
  next pid t ht =>
  rw [ht] at hd
  have hrun : t.isRunnable pid := by
    have h : s.isRunnable pid := isRunnable_of_dispatchLocal (by rw [ht])
    have hget : t.get = s.get := by
      have : t = s.dispatchLocal.2 := by rw [ht]
      rw [this]
      unfold dispatchLocal
      split <;> rfl
    rw [isRunnable, hget]
    exact h
  refine hd.trans ?_
  unfold restoreSyscallFrame
  cases hp : t.get pid with
  | none => exact Changes.of_acts (enqueue_rel (containsSends_acts G) t pid)
  | some p =>
    dsimp only
    cases hf : p.savedSyscall with
    | none => exact Changes.of_acts (enqueue_rel (containsSends_acts G) t pid)
    | some frame =>
      have hz := not_isZombie_of_isRunnable hrun hp
      refine (changes_put (q := { p with savedSyscall := none }) (get_self hp)
        ⟨rfl, rfl, rfl, rfl, hz, hz, .of_same rfl rfl rfl rfl rfl⟩).trans (.single (.focus ?_))
      rw [isRunnable, get_put, if_pos (pid_of_get hp).symm, hp]
      rw [isRunnable, hp] at hrun
      exact hrun

theorem changes_blockCurrent (hs : s.CurrentLive) (reason : BlockReason) :
    Changes V G s (s.blockCurrent reason) :=
  changes_modifyCurrent hs fun _ hz => ⟨rfl, rfl, rfl, rfl, hz, rfl, .of_same rfl rfl rfl rfl rfl⟩

theorem acts_exit_current (hs : s.CurrentLive) (hG : ∀ m r, s.isLive m → G m r)
    (hcur : s.current = some pid) : Acts G s (s.exitWithReason pid reason).1 := by
  cases hp : s.get pid with
  | none =>
    rw [exitWithReason_eq, exitStep, hp]
    exact .refl
  | some p =>
    exact acts_exitWithReason hG .refl (hG pid reason (isLive_iff.2 ⟨p, hp, hs pid p hcur hp⟩))

theorem acts_processExit (h : Acts G s (s.exitWithReason pid reason).1) :
    Acts G s (s.processExit pid reason) :=
  h.trans ((wakeIoWaiters_rel (containsSends_acts G) _).trans
    (wakeProcesses_rel (containsSends_acts G) _ _))

theorem acts_processExitGroup (hG : ∀ m r, s.isLive m → G m r) (pid : Pid) (status : ℤ) :
    Acts G s (s.processExitGroup pid status) :=
  (acts_exitGroup hG pid status).trans ((wakeIoWaiters_rel (containsSends_acts G) _).trans
    (wakeProcesses_rel (containsSends_acts G) _ _))

theorem changes_execForUser (hs : s.CurrentLive) (hcur : s.current = some pid)
    (image : ExecImage) : Changes Vfs.Steps G s (s.execForUser pid image) := by
  unfold execForUser
  split
  · exact .refl
  next p hp =>
  split
  · exact changes_memory s s.spaces s.nextSpace _
  have hz := hs pid p hcur hp
  obtain ⟨spaces, phys, heq⟩ := destroyAddressSpaceHandle_eq _ p.addressSpace
  dsimp only
  rw [heq]
  refine .trans (.single (.touch (get_self hp) ?_)) (changes_world
    ((Vfs.steps_closeAll _ _).trans (Vfs.steps_closeOnExecFds _ _ _ _)) _ _ _)
  refine ⟨rfl, rfl, rfl, rfl, hz, rfl, .trans ?_ (.single _ .exec)⟩
  exact .of_same rfl rfl rfl rfl rfl

/-- Preparing a buffer changes the memory only. -/
theorem writeUserBuffer_eq (s : State) (addr len : ℕ) : ∃ spaces phys,
    (s.writeUserBuffer addr len).2 = { s with spaces := spaces, phys := phys } := by
  unfold writeUserBuffer
  split
  · exact ⟨s.spaces, s.phys, rfl⟩
  · split
    · exact ⟨s.spaces, s.phys, rfl⟩
    · exact ⟨_, _, rfl⟩

theorem writeUser_eq (s : State) (addr : ℕ) (bytes : List UInt8) : ∃ spaces phys,
    (s.writeUser addr bytes).2 = { s with spaces := spaces, phys := phys } := by
  obtain ⟨spaces, phys, heq⟩ := s.writeUserBuffer_eq addr bytes.length
  unfold writeUser
  split
  · next t h =>
    rw [h] at heq
    exact ⟨spaces, phys, heq⟩
  · next t h =>
    rw [h] at heq
    obtain rfl : t = _ := heq
    unfold fillUser
    split
    · exact ⟨spaces, phys, rfl⟩
    · exact ⟨_, _, rfl⟩

theorem readUser_eq (s : State) (addr len : ℕ) : ∃ spaces phys,
    (s.readUser addr len).2 = { s with spaces := spaces, phys := phys } := by
  unfold readUser
  split
  · exact ⟨s.spaces, s.phys, rfl⟩
  · split
    · exact ⟨s.spaces, s.phys, rfl⟩
    · exact ⟨_, _, rfl⟩

theorem changes_of_eq {spaces : ℕ → AddressSpace} {phys : PhysicalMemory}
    (h : t = { s with spaces := spaces, phys := phys }) : Changes V G s t := by
  rw [h]
  exact changes_memory s spaces s.nextSpace phys

theorem changes_of_writeUser (h : s.writeUser addr bytes = (ok, t)) : Changes V G s t := by
  obtain ⟨spaces, phys, heq⟩ := s.writeUser_eq addr bytes
  rw [h] at heq
  exact changes_of_eq heq

theorem changes_of_writeUserOpt (h : s.writeUserOpt addr bytes = (ok, t)) : Changes V G s t := by
  unfold writeUserOpt at h
  split at h
  · cases h
    exact .refl
  · exact changes_of_writeUser h

theorem changes_markWaitedStopped (s : State) (parent child : Pid) :
    Changes V G s (s.markWaitedStopped parent child).2 := by
  unfold markWaitedStopped
  split
  · exact .refl
  next p hp =>
  split
  · exact .refl
  next h =>
  have hz : p.state.isZombie = false := by
    cases hst : p.state <;> simp_all [ProcessState.isStopped, ProcessState.isZombie]
  exact changes_put (get_self hp) ⟨rfl, rfl, rfl, rfl, hz, hz, .of_same rfl rfl rfl rfl rfl⟩

theorem changes_markWaitedContinued (s : State) (parent child : Pid) :
    Changes V G s (s.markWaitedContinued parent child).2 := by
  unfold markWaitedContinued
  split
  · exact .refl
  next p hp =>
  split
  · exact .refl
  · exact .single (.reported (get_self hp))

theorem changes_reapWaitedZombie (s : State) (parent child : Pid) :
    Changes V G s (s.reapWaitedZombie parent child).2 := by
  unfold reapWaitedZombie
  split
  · exact .refl
  next p hp =>
  split
  · exact .refl
  next h =>
  refine Changes.of_acts (acts_reap ?_)
  rw [isZombie, hp]
  simp_all

section
variable (hs : s.CurrentLive)
include hs

theorem changes_linuxWait4 (pid : ℤ) (statusPtr : ℕ)
    (nohang untraced continued : Bool) (rusagePtr : ℕ) :
    Changes V G s (s.linuxWait4 pid statusPtr nohang untraced continued rusagePtr).2 := by
  unfold linuxWait4
  split
  · exact .refl
  · exact .refl
  next parent selector _ _ =>
  split
  · next waited status _ =>
    split
    · next hu => exact changes_of_writeUserOpt hu
    next u hu =>
    have hfirst : Changes V G s u := changes_of_writeUserOpt hu
    split
    · next ht => exact hfirst.trans (changes_of_writeUserOpt ht)
    next t ht =>
    have htail : Changes V G s t := hfirst.trans (changes_of_writeUserOpt ht)
    cases status with
    | stopped _ =>
      dsimp only
      split <;> exact htail.trans (changes_markWaitedStopped t _ _)
    | continued =>
      dsimp only
      split <;> exact htail.trans (changes_markWaitedContinued t _ _)
    | exited _ =>
      dsimp only
      split <;> exact htail.trans (changes_reapWaitedZombie t _ _)
    | signaled _ =>
      dsimp only
      split <;> exact htail.trans (changes_reapWaitedZombie t _ _)
  · repeat' split
    · exact .refl
    · exact .refl
    · exact changes_blockCurrent hs _

theorem changes_wait (hcur : s.current = some pid) (child : Pid) :
    Changes V G s (s.wait pid child).2 := by
  unfold wait
  split
  · exact .refl
  next p hp =>
  split
  · exact .refl
  split
  · next reason hst =>
    refine Changes.of_acts (acts_reap ?_)
    rw [isZombie, hp]
    simp [hst, ProcessState.isZombie]
  unfold modify
  split
  · next q hq =>
    exact changes_put (get_self hq) ⟨rfl, rfl, rfl, rfl, hs pid q hcur hq, rfl,
      .of_same rfl rfl rfl rfl rfl⟩
  · exact .refl

theorem changes_sysWaitpidActive (hcur : s.current = some pid)
    (child : Pid) : Changes V G s (s.sysWaitpidActive pid child) := by
  have hw := changes_wait (V := V) (G := G) hs hcur child
  unfold sysWaitpidActive
  split
  · next h => rw [h] at hw; exact hw
  next t h =>
  rw [h] at hw
  split
  · exact hw.trans (changes_blockCurrent (currentLive_of_changes hs hw) _)
  · exact hw

theorem changes_credCall (call : CredCall) : Changes V G s (call.exec s) := by
  rcases credCall_exec_eq call s with h | ⟨f, h, -⟩
  · rw [h]
    exact .refl
  rw [h]
  refine changes_currentProcess hs fun p hget hz => ?_
  split
  · exact .refl
  · exact changes_put hget ⟨rfl, rfl, rfl, rfl, hz, hz, .of_same rfl rfl rfl rfl rfl⟩

end

theorem touched_setSignalAction (hz : p.state.isZombie = false) (signal handler : ℕ)
    (mask : BitVec 64) (flags : ℕ) : p.Touched (p.setSignalAction signal handler mask flags) := by
  have hsteps : p.Steps (p.setSignalAction signal handler mask flags) :=
    .single p (.setAction signal handler mask flags)
  obtain ⟨_, _, _, _, _, heq⟩ := p.setSignalAction_eq signal handler mask flags
  rw [heq] at hsteps ⊢
  exact ⟨rfl, rfl, rfl, rfl, hz, hz, hsteps⟩

section
variable (hs : s.CurrentLive)
include hs

theorem changes_setSignalAction (hcur : s.current = some pid) (signal : ℕ)
    (handler : ℕ) (mask : BitVec 64) (flags : ℕ) :
    Changes V G s (s.setSignalAction pid signal handler mask flags) := by
  unfold setSignalAction
  split
  · exact .refl
  next p hp =>
  have hz := hs pid p hcur hp
  exact changes_put (get_self hp) (touched_setSignalAction hz signal handler mask flags)

theorem changes_linuxRtSigaction (signum : ℕ)
    (act : Option (Option SigAction)) : Changes V G s (s.linuxRtSigaction signum act).2 := by
  unfold linuxRtSigaction
  repeat' split
  all_goals first
    | exact .refl
    | exact changes_setSignalAction hs (by assumption) _ _ _ _

theorem changes_setCurrentSignalMask (mask : BitVec 64) :
    Changes V G s (s.setCurrentSignalMask mask) :=
  changes_modifyCurrent hs fun _ hz => ⟨rfl, rfl, rfl, rfl, hz, hz, .single _ (.setMask mask)⟩

theorem changes_linuxRtSigprocmask (how : SigprocmaskHow)
    (set : Option (Option (BitVec 64))) : Changes V G s (s.linuxRtSigprocmask how set).2 := by
  unfold linuxRtSigprocmask
  repeat' split
  all_goals first
    | exact .refl
    | exact changes_setCurrentSignalMask hs _

end

theorem touched_takePendingSignal (hz : p.state.isZombie = false) :
    p.Touched p.takePendingSignal.2 := by
  have hsteps : p.Steps p.takePendingSignal.2 := .single p .take
  obtain ⟨_, _, heq⟩ := p.takePendingSignal_eq
  rw [heq] at hsteps ⊢
  exact ⟨rfl, rfl, rfl, rfl, hz, hz, hsteps⟩

section
variable (hs : s.CurrentLive)
include hs

/-- Taking a signal leaves the running process running. -/
theorem takePendingSignalCurrent_spec :
    Changes V G s s.takePendingSignalCurrent.2 ∧ s.takePendingSignalCurrent.2.current = s.current ∧
      ∀ r ∈ s.takePendingSignalCurrent.1, s.current = some r.1 := by
  unfold takePendingSignalCurrent
  split
  · exact ⟨.refl, rfl, by simp⟩
  next pid hcur =>
  split
  · exact ⟨.refl, rfl, by simp⟩
  next p hp =>
  have htouch := touched_takePendingSignal (hs pid p hcur hp)
  split <;> next h =>
    rw [h] at htouch
    refine ⟨changes_put (get_self hp) htouch, rfl, ?_⟩
    simp [hcur]

omit hs in
theorem isLive_of_changes (h : Changes V G s t) (ht : t.isLive pid) : s.isLive pid := by
  induction h with
  | refl => exact ht
  | tail _ h ih =>
    obtain ⟨q, hq, hz⟩ := isLive_iff.1 ht
    obtain ⟨p, hp, hpq⟩ := h.changed hq
    exact ih (isLive_iff.2 ⟨p, hp, hpq.reason.live hz⟩)

/-- Delivering a signal ends the process that took it, or ends nobody. -/
theorem deliverPendingSignal_cases (caught : Bool) :
    Changes V G s (s.deliverPendingSignal caught).2 ∨
      ∃ pid reason, s.takePendingSignalCurrent.2.current = some pid ∧
        (s.deliverPendingSignal caught).2 =
          s.takePendingSignalCurrent.2.processExit pid reason := by
  obtain ⟨htake, hcur, hpid⟩ := takePendingSignalCurrent_spec (G := G) hs
  unfold deliverPendingSignal
  split
  · next h => rw [h] at htake; exact .inl htake
  next pid signum status t h =>
  rw [h] at htake hcur hpid ⊢
  have hlive := currentLive_of_changes hs htake
  have hexit : ∀ r, ∃ pid' reason, t.current = some pid' ∧
      t.processExit pid r = t.processExit pid' reason :=
    fun r => ⟨pid, r, hcur.trans (hpid _ rfl), rfl⟩
  split
  · exact .inr (hexit _)
  extract_lets handler
  clear_value handler
  split
  · exact .inl htake
  split
  · split
    · exact .inl htake
    · exact .inl (htake.trans (changes_setCurrentSignalMask hlive _))
  split
  · have hA := containsSends_acts G
    exact .inl (htake.trans (Changes.of_acts (wakeResult_rel hA
      (stop_rel hA.toContainsSignals (fun _ => .single .leave)
        fun p hp hz => .single (.stop hp hz)))))
  · exact .inr (hexit _)

theorem changes_deliverPendingSignal (hG : ∀ m r, s.isLive m → G m r)
    (caught : Bool) : Changes V G s (s.deliverPendingSignal caught).2 := by
  obtain ⟨htake, -⟩ := takePendingSignalCurrent_spec (G := G) hs
  rcases deliverPendingSignal_cases (G := G) hs caught with h | ⟨pid, reason, hcur, heq⟩
  · exact h
  rw [heq]
  refine htake.trans (Changes.of_acts (acts_processExit
    (acts_exit_current (currentLive_of_changes hs htake) (fun m r hm => ?_) hcur)))
  exact hG m r (isLive_of_changes htake hm)

theorem changes_takeInterruptedSyscall : Changes V G s s.takeInterruptedSyscall := by
  refine changes_modifyCurrent hs fun p hz => ?_
  split <;> exact ⟨rfl, rfl, rfl, rfl, hz, hz, .of_same rfl rfl rfl rfl rfl⟩

omit hs in
theorem changes_fds (h : s.get p.pid = some p) (hz : p.state.isZombie = false)
    (hq : ∃ fds, q = { p with fds := fds }) : Changes V G s (s.put q) := by
  obtain ⟨fds, rfl⟩ := hq
  exact changes_put h ⟨rfl, rfl, rfl, rfl, hz, hz, .of_same rfl rfl rfl rfl rfl⟩

omit hs in
theorem changes_fsClose (s : State) (fd : ℕ) : Changes Vfs.Steps G s (s.fsClose fd).2 :=
  changes_files (.single (.close s.vfs fd))

omit hs in
theorem changes_closeAll (s : State) (fds : List ℕ) :
    Changes Vfs.Steps G s { s with vfs := s.vfs.closeAll fds } :=
  changes_files (Vfs.steps_closeAll s.vfs fds)

theorem changes_userClose (userFd : ℕ) : Changes Vfs.Steps G s (s.userClose userFd).2 := by
  refine changes_currentProcess hs fun p hget hz => ?_
  split
  · exact .refl
  next fd q hq =>
  exact (changes_fds hget hz (removeFd_eq hq)).trans
    ((changes_fsClose _ fd).trans
      (Changes.of_acts (wakeIoWaiters_rel (containsSends_acts G) _)))

theorem changes_userDup (userFd : ℕ) : Changes Vfs.Steps G s (s.userDup userFd).2 := by
  refine changes_currentProcess hs fun p hget hz => ?_
  split
  · split
    · exact .refl
    next dup v hd =>
    have hdup : Changes Vfs.Steps G s { s with vfs := v } :=
      changes_files (.single (.duplicate hd))
    split
    · exact hdup.trans (changes_fsClose _ dup)
    next fd q hq =>
    exact hdup.trans
      (changes_fds hget hz (pushFdWithAllFlags_eq hq))
  · exact .refl

omit hs in
theorem changes_replaceFd (hget : s.get p.pid = some p) (hz : p.state.isZombie = false)
    (userFd targetFd fdFlags : ℕ) : Changes Vfs.Steps G s (s.replaceFd p userFd targetFd fdFlags).2 := by
  unfold replaceFd
  split
  · split
    · exact .refl
    next dup v hd =>
    have hdup : Changes Vfs.Steps G s { s with vfs := v } :=
      changes_files (.single (.duplicate hd))
    have hput : ∀ q : Process, (∃ fds, q = { p with fds := fds }) →
        Changes Vfs.Steps G s ({ s with vfs := v }.put q) := fun q hq =>
      hdup.trans (changes_fds hget hz hq)
    dsimp only
    split
    · exact hdup.trans (changes_fsClose _ dup)
    · next q hq => exact hput q (replaceFdWithFlags_eq hq)
    next old q hq =>
    have hclose : Changes Vfs.Steps G s (({ s with vfs := v }.put q).fsClose old).2 :=
      (hput q (replaceFdWithFlags_eq hq)).trans (changes_fsClose _ old)
    split <;> next h => rw [h] at hclose; exact hclose
  · exact .refl

theorem changes_userDup2 (userFd targetFd : ℕ) :
    Changes Vfs.Steps G s (s.userDup2 userFd targetFd).2 := by
  refine changes_currentProcess hs fun p hget hz => ?_
  split
  · split <;> exact .refl
  · exact changes_replaceFd hget hz _ _ _

theorem changes_linuxDup3 (oldfd newfd flags : ℕ) :
    Changes Vfs.Steps G s (s.linuxDup3 oldfd newfd flags).2 := by
  unfold linuxDup3
  split
  · exact .refl
  refine changes_currentProcess hs fun p hget hz => ?_
  split
  · exact .refl
  · exact changes_replaceFd hget hz _ _ _

end

theorem changes_of_writeUserBuffer (h : s.writeUserBuffer addr len = (ok, t)) :
    Changes V G s t := by
  obtain ⟨spaces, phys, heq⟩ := s.writeUserBuffer_eq addr len
  rw [h] at heq
  exact changes_of_eq heq

theorem changes_installPipeFdsWithFlags (hs : s.CurrentLive)
    (pipefd readVfs writeVfs statusFlags fdFlags : ℕ) :
    Changes Vfs.Steps G s (s.installPipeFdsWithFlags pipefd readVfs writeVfs statusFlags fdFlags).2 := by
  unfold installPipeFdsWithFlags
  split
  · exact changes_closeAll s _
  next p hp =>
  obtain ⟨hget, hz⟩ := hs.currentProcess hp
  split
  · exact changes_closeAll s _
  next userRead q hq =>
  obtain ⟨fds, rfl⟩ := pushFdWithAllFlags_eq hq
  split
  · split
    · next fd r hr =>
      obtain ⟨fds', rfl⟩ := removeFd_eq hr
      exact (changes_fds hget hz ⟨_, rfl⟩).trans (changes_closeAll _ _)
    · exact (changes_fds hget hz ⟨_, rfl⟩).trans (changes_closeAll _ _)
  next userWrite r hr =>
  obtain ⟨fds', rfl⟩ := pushFdWithAllFlags_eq hr
  have hput : Changes Vfs.Steps G s (s.put { p with fds := fds' }) := changes_fds hget hz ⟨_, rfl⟩
  dsimp only
  split
  · next u hu =>
    have hwrite := hput.trans (changes_of_writeUser hu)
    have hclose := hwrite.trans (changes_userClose (currentLive_of_changes hs hwrite) userRead)
    exact hclose.trans (changes_userClose (currentLive_of_changes hs hclose) userWrite)
  · next u hu => exact hput.trans (changes_of_writeUser hu)

theorem changes_linuxPipe2 (hs : s.CurrentLive) (pipefd flags : ℕ) :
    Changes Vfs.Steps G s (s.linuxPipe2 pipefd flags).2 := by
  unfold linuxPipe2
  split
  · exact .refl
  split
  · next ht => exact changes_of_writeUserBuffer ht
  next t ht =>
  have hpipe : Changes Vfs.Steps G s { t with vfs := (t.vfs.createPipe pipeCapacity).2 } :=
    (changes_of_writeUserBuffer ht).trans (changes_files (.single (.create t.vfs _)))
  split
  · next h =>
    rw [h] at hpipe
    exact hpipe
  · next h =>
    rw [h] at hpipe
    exact hpipe.trans
      (changes_installPipeFdsWithFlags (currentLive_of_changes hs hpipe) _ _ _ _ _)

theorem changes_fsRead (s : State) (fd len : ℕ) (other : Except VfsError (List UInt8)) :
    Changes Vfs.Steps G s (s.fsRead fd len other).2 := by
  have hread : Changes Vfs.Steps G s { s with vfs := (s.vfs.read fd len other).2 } :=
    changes_files (s.vfs.steps_read fd len other)
  unfold fsRead
  dsimp only
  split
  · split
    · exact hread.trans (Changes.of_acts (wakeIoWaiters_rel (containsSends_acts G) _))
    · exact hread
  · exact hread

theorem changes_fsWrite (s : State) (fd : ℕ) (input : List UInt8) (other : Except VfsError ℕ) :
    Changes Vfs.Steps G s (s.fsWrite fd input other).2 := by
  have hwrite : Changes Vfs.Steps G s { s with vfs := (s.vfs.write fd input other).2 } :=
    changes_files (s.vfs.steps_write fd input other)
  unfold fsWrite
  dsimp only
  split
  · split
    · exact hwrite.trans (Changes.of_acts (wakeIoWaiters_rel (containsSends_acts G) _))
    · exact hwrite
  · exact hwrite

section
variable (hs : s.CurrentLive)
include hs

theorem changes_linuxRead (fd buf len : ℕ)
    (other : Except VfsError (List UInt8)) : Changes Vfs.Steps G s
      (s.linuxRead fd buf len other).2 := by
  unfold linuxRead
  split
  · split <;> exact .refl
  split
  · next ht => exact changes_of_writeUserBuffer ht
  next t ht =>
  have htail := changes_of_writeUserBuffer (V := Vfs.Steps) (G := G) ht
  split
  · exact htail
  split
  · exact htail
  next vfsFd _ =>
  have hread := htail.trans (changes_fsRead t vfsFd len other)
  split
  · next bytes u h =>
    rw [h] at hread
    split
    · next w hw => exact hread.trans (changes_of_writeUser hw)
    · next w hw => exact hread.trans (changes_of_writeUser hw)
  · next u h =>
    rw [h] at hread
    split
    · exact hread
    · exact hread.trans (changes_blockCurrent (currentLive_of_changes hs hread) _)
  · next e u _ h =>
    rw [h] at hread
    exact hread

omit hs in
theorem changes_of_readUser (h : s.readUser addr len = (bytes, t)) : Changes V G s t := by
  obtain ⟨spaces, phys, heq⟩ := s.readUser_eq addr len
  rw [h] at heq
  exact changes_of_eq heq

/-- A write ends in a change of the files, or in SIGPIPE for the writer. -/
theorem linuxWriteFrom_changes
    (vfsFd buf len : ℕ) (nonblocking : Bool) (other : Except VfsError ℕ) (n : ℕ) :
    ∀ total t, Changes Vfs.Steps G s t → ∃ u, Changes Vfs.Steps G s u ∧
      ((linuxWriteFrom vfsFd buf len nonblocking other n total t).2 = u ∨
        ∃ e, (linuxWriteFrom vfsFd buf len nonblocking other n total t).2 =
          (u.mapWriteVfsError e).2) := by
  induction n with
  | zero => exact fun _ t ht => ⟨t, ht, .inl rfl⟩
  | succ n ih =>
    intro total t ht
    unfold linuxWriteFrom
    split
    · exact ⟨t, ht, .inl rfl⟩
    split
    · next u hu => exact ⟨u, ht.trans (changes_of_readUser hu), .inl rfl⟩
    next bytes u hu =>
    have hwrite := (ht.trans (changes_of_readUser hu)).trans
      (changes_fsWrite u vfsFd bytes other)
    split
    · next written w h =>
      rw [h] at hwrite
      split
      · exact ⟨w, hwrite, .inl rfl⟩
      · exact ih _ w hwrite
    · next w h =>
      rw [h] at hwrite
      split
      · exact ⟨w, hwrite, .inl rfl⟩
      split
      · exact ⟨w, hwrite, .inl rfl⟩
      · have hblock := changes_blockCurrent (V := Vfs.Steps) (G := G)
          (currentLive_of_changes hs hwrite)
        exact ⟨_, hwrite.trans (hblock _), .inl rfl⟩
    · next e w _ h =>
      rw [h] at hwrite
      exact ⟨w, hwrite, .inr ⟨e, rfl⟩⟩

theorem linuxWrite_changes (fd buf len : ℕ) (other : Except VfsError ℕ) :
    ∃ u, Changes Vfs.Steps G s u ∧ ((s.linuxWrite fd buf len other).2 = u ∨
      ∃ e, (s.linuxWrite fd buf len other).2 = (u.mapWriteVfsError e).2) := by
  unfold linuxWrite
  split
  · exact linuxWriteFrom_changes hs _ _ _ _ _ _ _ _ .refl
  split
  · next t ht => exact ⟨t, changes_of_readUser ht, .inl rfl⟩
  · next bytes t ht =>
    split <;> exact ⟨t, changes_of_readUser ht, .inl rfl⟩

section
variable (hG : ∀ m r, s.isLive m → G m r)
include hG

/-- SIGPIPE reaches the writer itself, which is alive. -/
theorem changes_mapWriteVfsError (e : VfsError) : Changes V G s (s.mapWriteVfsError e).2 := by
  unfold mapWriteVfsError
  split
  · split
    · next pid hcur =>
      -- the writer is alive when the signal is sent
      refine Changes.of_acts (send_rel (containsSends_acts G) trivial .refl
        (Q := fun _ p => p.pid = pid ∧ s.isLive pid) (mayEnd_acts hG fun _ p _ _ hq _ => ?_)
        fun p hp => ⟨pid_of_get hp, isLive_iff.2 ⟨p, hp, hs pid p hcur hp⟩⟩)
      rw [hq.1]
      exact hG pid _ hq.2
    · exact .refl
  · exact .refl

theorem changes_linuxWrite (fd buf len : ℕ) (other : Except VfsError ℕ) :
    Changes Vfs.Steps G s (s.linuxWrite fd buf len other).2 := by
  obtain ⟨u, hu, heq | ⟨e, heq⟩⟩ := linuxWrite_changes (G := G) hs fd buf len other
  · rw [heq]
    exact hu
  · rw [heq]
    exact hu.trans (changes_mapWriteVfsError (currentLive_of_changes hs hu)
      (fun m r hm => hG m r (isLive_of_changes hu hm)) e)

end

end

theorem touched_timedWaitDeadline (hz : p.state.isZombie = false) (key : BitVec 64)
    (timeout now : ℕ) : p.Touched (p.timedWaitDeadline key timeout now).2 := by
  unfold timedWaitDeadline
  repeat' split
  all_goals exact ⟨rfl, rfl, rfl, rfl, hz, hz, .of_same rfl rfl rfl rfl rfl⟩

theorem touched_clearTimedWait (hz : p.state.isZombie = false) (key : BitVec 64) :
    p.Touched (p.clearTimedWait key) := by
  unfold clearTimedWait
  split <;> exact ⟨rfl, rfl, rfl, rfl, hz, hz, .of_same rfl rfl rfl rfl rfl⟩

theorem Touched.trans (h : p.Touched q) (h' : q.Touched r) : p.Touched r :=
  ⟨h'.pid.trans h.pid, h'.parent.trans h.parent, h'.pgrp.trans h.pgrp, h'.sid.trans h.sid,
    h.before, h'.after, h.signals.trans h'.signals⟩

section
variable (hs : s.CurrentLive)
include hs

theorem changes_put_blockForIo (h : s.get p.pid = some p)
    (hq : p.Touched q) (deadline : Option ℕ) (now : ℕ) :
    Changes V G s ((s.put q).blockForIo deadline now) :=
  (changes_put h hq).trans
    (changes_blockCurrent (currentLive_of_changes hs (changes_put (V := V) (G := G) h hq)) _)

theorem changes_timedBlock (key : BitVec 64) (timeout now : ℕ) :
    Changes V G s (s.timedBlock key timeout now).2 := by
  refine changes_currentProcess hs fun p hget hz => ?_
  have htouch := touched_timedWaitDeadline hz key timeout now
  split
  · exact .refl
  next deadline q h =>
  rw [h] at htouch
  split
  · exact changes_put hget (Touched.trans htouch (touched_clearTimedWait htouch.after key))
  · exact changes_put_blockForIo hs hget htouch _ _

theorem changes_endTimedWait (key : BitVec 64) : Changes V G s (s.endTimedWait key) :=
  changes_modifyCurrent hs fun _ hz => touched_clearTimedWait hz key

end

theorem readUser_get (h : s.readUser addr len = (bytes, t)) : t.get = s.get := by
  obtain ⟨spaces, phys, heq⟩ := s.readUser_eq addr len
  rw [h] at heq
  obtain rfl : t = _ := heq
  rfl

theorem changes_linuxFutexWait (hs : s.CurrentLive) (uaddr expected : ℕ)
    (timeout : Option (Except Errno ℕ)) (priv : Bool) (now : ℕ) :
    Changes V G s (s.linuxFutexWait uaddr expected timeout priv now).2 := by
  refine changes_currentProcess hs fun p hget hz => ?_
  extract_lets key
  clear_value key
  have htake : p.Touched (p.takeTimedWaitWake key).2 := by
    unfold takeTimedWaitWake
    split <;> exact ⟨rfl, rfl, rfl, rfl, hz, hz, .of_same rfl rfl rfl rfl rfl⟩
  split
  · next q h =>
    rw [h] at htake
    exact changes_put hget htake
  split
  · next t ht =>
    have htget : t.get p.pid = some p := by rw [readUser_get ht]; exact hget
    exact (changes_of_readUser ht).trans (changes_put htget (touched_clearTimedWait hz key))
  next bytes t ht =>
  have hread := changes_of_readUser (V := V) (G := G) ht
  have htlive := currentLive_of_changes hs hread
  have htget : t.get p.pid = some p := by rw [readUser_get ht]; exact hget
  have hclear := hread.trans (changes_put htget (touched_clearTimedWait hz key))
  split
  · exact hclear
  split
  · exact hclear
  · have htouch := touched_timedWaitDeadline hz key (u64Max / 4) now
    split
    · exact hread
    next h =>
    rw [h] at htouch
    exact hread.trans (changes_put_blockForIo htlive htget htouch _ _)
  next wait =>
  have htouch := touched_timedWaitDeadline hz key wait now
  split
  · exact hread
  next h =>
  rw [h] at htouch
  split
  · exact hread.trans (changes_put htget
      (Touched.trans htouch (touched_clearTimedWait htouch.after key)))
  · exact hread.trans (changes_put_blockForIo htlive htget htouch _ _)

theorem changes_linuxFutex (hs : s.CurrentLive) (uaddr op : ℕ) (val : ℤ)
    (timeout : Option (Except Errno ℕ)) (now : ℕ) :
    Changes V G s (s.linuxFutex uaddr op val timeout now).2 := by
  unfold linuxFutex
  split
  · exact .refl
  split
  · exact .refl
  split
  · exact changes_linuxFutexWait hs _ _ _ _ _
  · unfold linuxFutexWake
    split
    · exact .refl
    split
    · next ht => exact changes_of_readUser ht
    next ht =>
    exact (changes_of_readUser ht).trans (Changes.of_acts
      (wakeTimedWaiters_rel (containsSends_acts G) _ _ _))
  · exact .refl

/-- `t` has one process more than `s`: a child of `p`, in the same group and session. -/
structure Born (s t : State) (p child : Process) : Prop where
  parent : s.get p.pid = some p
  childOf : child.parent = some p.pid
  pid : child.pid = s.nextPid
  pgrp : child.pgrp = p.pgrp
  sid : child.sid = p.sid
  state : child.state = .ready
  bits : child.pendingSignals = 0
  last : child.pendingSignalStatus = none
  mask : child.signalMask = p.signalMask
  processes : t.processes = s.processes.push child
  nextPid : t.nextPid = s.nextPid + 1
  current : t.current = s.current

/-- The table and the process that runs are the same. -/
structure SameTable (s t : State) : Prop where
  processes : t.processes = s.processes
  nextPid : t.nextPid = s.nextPid
  current : t.current = s.current

theorem Born.of_push (hp : s.get pid = some p) (hchild : child.parent = some pid)
    (hpid : child.pid = s.nextPid)
    (hpgrp : child.pgrp = p.pgrp) (hsid : child.sid = p.sid) (hstate : child.state = .ready)
    (hbits : child.pendingSignals = 0) (hlast : child.pendingSignalStatus = none)
    (hmask : child.signalMask = p.signalMask) {spaces : ℕ → AddressSpace} {nextSpace : ℕ}
    {phys : PhysicalMemory} : Born s (enqueue { s with
      processes := s.processes.push child
      nextPid := s.nextPid + 1
      spaces := spaces
      nextSpace := nextSpace
      phys := phys
      vfs := vfs } i) p child := by
  have hparent : child.parent = some p.pid := by rw [hchild, pid_of_get hp]
  unfold enqueue
  split <;> exact ⟨get_self hp, hparent, hpid, hpgrp, hsid, hstate, hbits, hlast, hmask, rfl, rfl, rfl⟩

theorem fork_born (s : State) (pid : Pid) (root : ℕ) :
    SameTable s (s.fork pid root).2 ∨
      ∃ p child, s.get pid = some p ∧ Born s (s.fork pid root).2 p child := by
  unfold fork
  split
  · exact .inl ⟨rfl, rfl, rfl⟩
  next p hp =>
  split
  · exact .inl ⟨rfl, rfl, rfl⟩
  split
  · exact .inl ⟨rfl, rfl, rfl⟩
  split
  · exact .inl ⟨rfl, rfl, rfl⟩
  · refine .inr ⟨p, _, hp, .of_push hp ?_ ?_ ?_ ?_ ?_ ?_ ?_ ?_⟩ <;> rfl

theorem cloneThread_born (s : State) (pid : Pid) (entry arg stackTop clearChildTid : ℕ) :
    SameTable s (s.cloneThread pid entry arg stackTop clearChildTid).2 ∨
      ∃ p child, s.get pid = some p ∧
        Born s (s.cloneThread pid entry arg stackTop clearChildTid).2 p child := by
  unfold cloneThread
  split
  · exact .inl ⟨rfl, rfl, rfl⟩
  next p hp =>
  split
  · exact .inl ⟨rfl, rfl, rfl⟩
  split
  · exact .inl ⟨rfl, rfl, rfl⟩
  · refine .inr ⟨p, _, hp, .of_push hp ?_ ?_ ?_ ?_ ?_ ?_ ?_ ?_⟩ <;> rfl

end State

open State

/-- The events that neither make a process nor move one to another group. -/
def Event.Tame : Event → Prop
  | .fork _ | .thread _ _ _ _ | .setsid | .setpgid _ _ => False
  | _ => True

/-- The signal an event sends to other processes. -/
def Event.Sends (signal : Signal) : Event → Prop
  | .kill _ sig | .sysKill _ sig => Signal.fromNumber sig = some signal
  | .signalPgrp _ sent | .sendPgrp _ sent => signal = sent
  | _ => False

/-- The signal of an event that happens in the state `s` reaches the process in the state `t`. -/
def Event.Reaches (s : State) (e : Event) (signal : Signal) (t : State) (p : Process) : Prop :=
  e.Sends signal ∧ match e with
    | .kill pid _ => s.KillReaches pid signal t p
    | .sysKill pid _ => p.pid = pid
    | .signalPgrp pgrp _ | .sendPgrp pgrp _ => InGroup pgrp t p
    | _ => False

/-- The events that send a signal to other processes. -/
def Event.IsSend : Event → Prop
  | .kill _ _ | .sysKill _ _ | .signalPgrp _ _ | .sendPgrp _ _ => True
  | _ => False

theorem Event.send_rel (hR : ContainsSends S R)
    (he : e.IsSend) (hS : ∀ signal, e.Sends signal → S signal)
    (hend : ∀ signal, MayEnd R s signal (e.Reaches s signal)) : R s (e.exec s) := by
  cases e with
  | kill pid sig =>
    exact linuxKill_rel hR hS fun signal hsig t p u ht hp hq =>
      hend signal t p u ht hp ⟨hsig, hq⟩
  | sysKill pid sig =>
    exact sysKillActive_rel hR hS fun signal hsig t p u ht hp hq =>
      hend signal t p u ht hp ⟨hsig, hq⟩
  | signalPgrp pgrp signal =>
    exact signalPgrp_rel hR (hS signal rfl) fun t p u ht hp hq =>
      hend signal t p u ht hp ⟨rfl, hq⟩
  | sendPgrp pgrp signal =>
    exact sendPgrp_rel hR (hS signal rfl) fun t p u ht hp hq =>
      hend signal t p u ht hp ⟨rfl, hq⟩
  | _ => exact he.elim

/-- The events that leave the open files alone and end nobody. -/
def Event.Quiet : Event → Prop
  | .enter _ | .dispatch | .saveFrame _ | .markReady | .tick _ | .keyboard | .ttyInput _
  | .wait4 _ _ _ _ _ _ | .waitpid _ | .cred _ | .sigaction _ _ | .sigprocmask _ _ | .sigreturn _
  | .takeInterrupted | .block _ | .futex _ _ _ _ _ | .timedBlock _ _ _ | .endTimedWait _ => True
  | _ => False

theorem Event.changes_quiet (he : e.Quiet) (hs : s.CurrentLive) : Changes V G s (e.exec s) := by
  cases e with
  | enter pid => exact changes_enter s pid
  | dispatch => exact changes_dispatch s
  | saveFrame frame => exact changes_withCurrent fun _ hcur => changes_saveSyscallFrame hs hcur frame
  | markReady => exact changes_withCurrent fun pid _ => changes_markReady s pid
  | tick now => exact .of_acts (wakeExpiredIoWaiters_rel (containsSends_acts G) s now)
  | keyboard => exact .of_acts (wakeIoWaiters_rel (containsSends_acts G) s)
  | ttyInput pid => exact .of_acts (wakeIoWaitersFor_rel (containsSends_acts G) s pid)
  | wait4 pid statusPtr nohang untraced continued rusagePtr =>
    exact changes_linuxWait4 hs pid statusPtr nohang untraced continued rusagePtr
  | waitpid child =>
    exact changes_withCurrent fun _ hcur => changes_sysWaitpidActive hs hcur child
  | cred call => exact changes_credCall hs call
  | sigaction signum act => exact changes_linuxRtSigaction hs signum act
  | sigprocmask how set => exact changes_linuxRtSigprocmask hs how set
  | sigreturn mask => exact changes_setCurrentSignalMask hs mask
  | takeInterrupted => exact changes_takeInterruptedSyscall hs
  | block reason => exact changes_blockCurrent hs reason
  | futex uaddr op val timeout now => exact changes_linuxFutex hs uaddr op val timeout now
  | timedBlock key timeout now => exact changes_timedBlock hs key timeout now
  | endTimedWait key => exact changes_endTimedWait hs key
  | _ => exact he.elim

/-- What a tame event does, if `G` allows the exits of processes that are alive and those the
signal of the event asks for. -/
theorem Event.changes (he : e.Tame) (hs : s.CurrentLive) (hG : ∀ m r, s.isLive m → G m r)
    (hend : ∀ signal t p, Acts G s t → t.get p.pid = some p → e.Reaches s signal t p →
      p.endedBy signal.defaultStatus t.current → G p.pid (.ofStatus signal.defaultStatus)) :
    Changes Vfs.Steps G s (e.exec s) := by
  have hsend : e.IsSend → Changes Vfs.Steps G s (e.exec s) := fun hsend =>
    .of_acts (Event.send_rel (containsSends_acts G) hsend (fun _ _ => trivial) fun signal =>
      mayEnd_acts hG (hend signal))
  cases e with
  | fork root => exact he.elim
  | thread entry arg stackTop clearChildTid => exact he.elim
  | execve image => exact changes_withCurrent fun _ hcur => changes_execForUser hs hcur image
  | exit status =>
    exact changes_withCurrent fun _ hcur =>
      .of_acts (acts_processExit (acts_exit_current hs hG hcur))
  | exitGroup status =>
    exact changes_withCurrent fun pid _ => .of_acts (acts_processExitGroup hG pid status)
  | fault status =>
    simp only [Event.exec, killCurrent]
    split
    · exact .refl
    · next pid hcur => exact .of_acts (acts_processExit (acts_exit_current hs hG hcur))
  | setsid => exact he.elim
  | setpgid pid pgid => exact he.elim
  | memory fileRoom pipeRoom => exact changes_files (.single (.memory s.vfs fileRoom pipeRoom))
  | kill pid sig => exact hsend trivial
  | sysKill pid sig => exact hsend trivial
  | signalPgrp pgrp signal => exact hsend trivial
  | sendPgrp pgrp signal => exact hsend trivial
  | deliver caught => exact changes_deliverPendingSignal hs hG caught
  | close fd => exact changes_userClose hs fd
  | dup fd => exact changes_userDup hs fd
  | dup2 fd target => exact changes_userDup2 hs fd target
  | dup3 fd target flags => exact changes_linuxDup3 hs fd target flags
  | pipe2 pipefd flags => exact changes_linuxPipe2 hs pipefd flags
  | read fd buf len other => exact changes_linuxRead hs fd buf len other
  | write fd buf len other => exact changes_linuxWrite hs hG fd buf len other
  | _ => exact Event.changes_quiet trivial hs

end Ristux.Kernel
