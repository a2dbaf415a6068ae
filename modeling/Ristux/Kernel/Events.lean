import Ristux.Kernel.Cred
import Ristux.Kernel.Futex

-- What can happen to the kernel: a system call of the running process, one pass of its loop at a
-- time, an exception, an interrupt, and the scheduler's choice of the next process. A run is a
-- sequence of events.

namespace Ristux.Kernel

inductive Event where
  -- the scheduler and interrupts
  | enter (pid : Pid)
  | dispatch
  | saveFrame (frame : Frame)
  | markReady
  | tick (now : ℕ)
  | keyboard
  | ttyInput (pid : Pid)
  | memory (fileRoom pipeRoom : ℕ)
  -- processes
  | fork (root : ℕ)
  | thread (entry arg stackTop clearChildTid : ℕ)
  | execve (image : State.ExecImage)
  | exit (status : ℤ)
  | exitGroup (status : ℤ)
  | fault (status : ℤ)
  | wait4 (pid : ℤ) (statusPtr : ℕ) (nohang untraced continued : Bool) (rusagePtr : ℕ)
  | waitpid (child : Pid)
  | setsid
  | setpgid (pid pgid : Pid)
  | cred (call : CredCall)
  -- signals
  | kill (pid : ℤ) (sig : ℕ)
  | sysKill (pid : Pid) (sig : ℕ)
  | signalPgrp (pgrp : Pid) (signal : Signal)
  | sendPgrp (pgrp : Pid) (signal : Signal)
  | sigaction (signum : ℕ) (act : Option (Option State.SigAction))
  | sigprocmask (how : State.SigprocmaskHow) (set : Option (Option (BitVec 64)))
  | sigreturn (mask : BitVec 64)
  | deliver (caught : Bool)
  | takeInterrupted
  -- descriptors
  | close (fd : ℕ)
  | dup (fd : ℕ)
  | dup2 (fd target : ℕ)
  | dup3 (fd target flags : ℕ)
  | pipe2 (pipefd flags : ℕ)
  | read (fd buf len : ℕ) (other : Except VfsError (List UInt8))
  | write (fd buf len : ℕ) (other : Except VfsError ℕ)
  -- waiting
  | block (reason : BlockReason)
  | futex (uaddr op : ℕ) (val : ℤ) (timeout : Option (Except Errno ℕ)) (now : ℕ)
  | timedBlock (key : BitVec 64) (timeout now : ℕ)
  | endTimedWait (key : BitVec 64)

variable (s : State)

namespace State

/-- A call of the running process. -/
def withCurrent (f : Pid → State) : State := s.current.elim s f

/-- A process that is ready starts to run. -/
def enter (pid : Pid) : State := if s.isRunnable pid then s.setCurrent pid else s

/-- `dispatch_saved_frame`, without the frame. -/
def dispatch : State :=
  match s.dispatchLocal with
  | (none, s) => s
  | (some pid, s) =>
    match s.restoreSyscallFrame pid with
    | (some _, s) => s.setCurrent pid
    | (none, s) => s.enqueue pid

/-- The `kill` of the `int 0x80` calls, which asks for no permission. -/
def sysKillActive (pid : Pid) (sig : ℕ) : Except Errno ℕ × State :=
  match Signal.fromNumber sig with
  | none => (.error .einval, s)
  | some signal =>
    match s.send pid signal with
    | (s, true) => (.ok 0, s)
    | (s, false) => (.error .esrch, s)

def hasChild (parent child : Pid) : Bool :=
  s.hasWaitChild parent (if child = 0 then .any else .process child)

/-- One pass through the loop of `sys_waitpid_active`. -/
def sysWaitpidActive (parent child : Pid) : State :=
  match s.wait parent child with
  | (some _, s) => s
  | (none, s) =>
    if s.hasChild parent child then s.blockCurrent (.waitChild child) else s

/-- What `linux_syscall_dispatch_frame` does first when a signal interrupted the last call. -/
def takeInterruptedSyscall : State :=
  s.modifyCurrent fun p =>
    if p.interruptedSyscall then { p with interruptedSyscall := false, timedWait := none } else p

end State

open State in
def Event.exec (s : State) : Event → State
  | .enter pid => s.enter pid
  | .dispatch => s.dispatch
  | .saveFrame frame => s.withCurrent fun pid => s.saveSyscallFrame pid frame
  | .markReady => s.withCurrent fun pid => (s.markReady pid).2
  | .tick now => s.wakeExpiredIoWaiters now
  | .keyboard => s.wakeIoWaiters
  | .ttyInput pid => s.wakeIoWaitersFor pid
  -- the rest of the kernel takes memory or gives it back
  | .memory fileRoom pipeRoom => { s with vfs := { s.vfs with fileRoom, pipeRoom } }
  | .fork root => s.withCurrent fun pid => (s.fork pid root).2
  | .thread entry arg stackTop clearChildTid =>
    s.withCurrent fun pid => (s.cloneThread pid entry arg stackTop clearChildTid).2
  | .execve image => s.withCurrent fun pid => s.execForUser pid image
  | .exit status => s.withCurrent fun pid => s.processExit pid (.exited status)
  | .exitGroup status => s.withCurrent fun pid => s.processExitGroup pid status
  | .fault status => s.killCurrent status
  | .wait4 pid statusPtr nohang untraced continued rusagePtr =>
    (s.linuxWait4 pid statusPtr nohang untraced continued rusagePtr).2
  | .waitpid child => s.withCurrent fun pid => s.sysWaitpidActive pid child
  | .setsid => s.setsidCurrent.2
  | .setpgid pid pgid => (s.setPgid pid pgid).2
  | .cred call => call.exec s
  | .kill pid sig => (s.linuxKill pid sig).2
  | .sysKill pid sig => (s.sysKillActive pid sig).2
  | .signalPgrp pgrp signal => (s.signalPgrp pgrp signal.defaultStatus).1
  | .sendPgrp pgrp signal => (s.sendPgrp pgrp signal).1
  | .sigaction signum act => (s.linuxRtSigaction signum act).2
  | .sigprocmask how set => (s.linuxRtSigprocmask how set).2
  | .sigreturn mask => s.setCurrentSignalMask mask
  | .deliver caught => (s.deliverPendingSignal caught).2
  | .takeInterrupted => s.takeInterruptedSyscall
  | .close fd => (s.userClose fd).2
  | .dup fd => (s.userDup fd).2
  | .dup2 fd target => (s.userDup2 fd target).2
  | .dup3 fd target flags => (s.linuxDup3 fd target flags).2
  | .pipe2 pipefd flags => (s.linuxPipe2 pipefd flags).2
  | .read fd buf len other => (s.linuxRead fd buf len other).2
  | .write fd buf len other => (s.linuxWrite fd buf len other).2
  | .block reason => s.blockCurrent reason
  | .futex uaddr op val timeout now => (s.linuxFutex uaddr op val timeout now).2
  | .timedBlock key timeout now => (s.timedBlock key timeout now).2
  | .endTimedWait key => s.endTimedWait key

/-- A run of the kernel from the state `s`. -/
def Event.run (s : State) (events : List Event) : State := events.foldl Event.exec s

/-- Each event of a run meets the condition `C` in the state it happens in. -/
def Event.Meets (C : State → Event → Prop) : State → List Event → Prop
  | _, [] => True
  | s, e :: events => C s e ∧ Event.Meets C (e.exec s) events

/-- An invariant that every event keeps, if it meets the condition, holds after every run. -/
theorem Event.run_induct {P : State → Prop}
    (hstep : ∀ s e, P s → C s e → P (e.exec s)) {s : State} (hs : P s)
    (h : Event.Meets C s events) : P (Event.run s events) := by
  induction events generalizing s with
  | nil => exact hs
  | cons e events ih => exact ih (hstep s e hs h.1) h.2

end Ristux.Kernel
