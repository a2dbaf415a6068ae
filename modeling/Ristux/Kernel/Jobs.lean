import Ristux.Kernel.Sched

-- The system calls that create, signal, wait for and end processes, and those that arrange them
-- in process groups and sessions. Data a call reads from user memory is an argument here; `none`
-- stands for an address that cannot be read.

namespace Ristux.Kernel
open Ristux.Lib Function Signal
open Memory (PhysicalMemory PagingError)

inductive Errno where
  | eperm | enoent | esrch | eintr | ebadf | echild | eagain | enomem | eacces | efault | einval
  | emfile | enosys | epipe | etimedout | eexist | emlink | enospc
  deriving DecidableEq, Repr

/-- What `set_signal_action` does to the process. -/
def Process.setSignalAction (p : Process) (signal handler : ℕ) (mask : BitVec 64) (flags : ℕ) :
    Process :=
  if h : signal < 32 then
    let p := { p with
      signalHandlers := update p.signalHandlers ⟨signal, h⟩ handler
      signalActionMasks :=
        update p.signalActionMasks ⟨signal, h⟩ (sanitizedSignalMask mask)
      signalFlags := update p.signalFlags ⟨signal, h⟩ flags }
    if handler = ignoreHandler then p.clearPendingSignal signal else p
  else p

variable (s : State) (parent : Pid) (selector : WaitSelector) (pid : Pid) (status : ℤ) (pgrp : Pid)

variable (signal : Option Signal) (acc : State × KillDelivery)

namespace State

def processExit (reason : ExitReason) : State :=
  let (s, wake) := s.exitWithReason pid reason
  s.wakeIoWaiters.wakeProcesses wake

def processExitGroup : State :=
  let (s, wake) := s.exitGroup pid status
  s.wakeIoWaiters.wakeProcesses wake

/-- Wake what a table operation asks for, and tell whether it found its process. -/
def wakeResult : State × Option WakeList → State × Bool
  | (s, some wake) => (s.wakeProcesses wake, true)
  | (s, none) => (s, false)

def processSignal : State × Bool :=
  wakeResult (s.signal pid status s.current)

def stopCurrentSignal (signal : ℕ) : State × Bool :=
  wakeResult (s.stop pid signal)

def processContinue : State × Bool := wakeResult (s.continueProcess pid)

/-- The end of a process by a fault. -/
def killCurrent : State :=
  match s.current with
  | none => s
  | some pid => s.processExit pid (.ofStatus status)

def send (signal : Signal) : State × Bool :=
  if signal = .cont then
    let (s, continued) := s.processContinue pid
    let (s, signaled) := s.processSignal pid signal.defaultStatus
    (s, continued || signaled)
  else s.processSignal pid signal.defaultStatus

/-- `while let Some(pid) = next(cursor)`: `next` gives process ids in ascending order, so the
loop takes at most one turn for each process. -/
def walk {α : Type} (next : α → Pid → Option Pid) (body : α → Pid → α) : ℕ → Pid → α → α
  | 0, _, a => a
  | n + 1, cursor, a =>
    match next a cursor with
    | none => a
    | some pid => walk next body n pid (body a pid)

def nextPidInPgrpAfter (pgrp after : Pid) : Option Pid :=
  ((s.processes.entries.filter fun p =>
    after < p.pid && p.pgrp = pgrp && !p.state.isZombie).map Process.pid).min?

def nextProcessPidAfter (after : Pid) : Option Pid :=
  ((s.processes.entries.filter fun p => after < p.pid).map Process.pid).min?

/-- `signal_pgrp`, which the console uses. -/
def signalPgrp (status : ℤ) : State × Bool :=
  walk (fun acc => acc.1.nextPidInPgrpAfter pgrp)
    (fun (s, delivered) pid =>
      let (s, d) := s.processSignal pid status
      (s, delivered || d)) s.pids.length 0 (s, false)

/-- `send_pgrp`, which pseudo-terminals use. -/
def sendPgrp (signal : Signal) : State × Bool :=
  walk (fun acc => acc.1.nextPidInPgrpAfter pgrp)
    (fun (s, delivered) pid =>
      let (s, d) := s.send pid signal
      (s, delivered || d)) s.pids.length 0 (s, false)

def canSignalCurrent (target : Pid) (signal : Option ℕ) : Option Bool := do
  let caller ← s.current
  let callerProc ← s.get caller
  let targetProc ← s.get target
  let c := callerProc.credentials
  let t := targetProc.credentials
  if caller = target ∨ c.isSuperuser then pure true
  else if signal = some cont.number ∧ callerProc.sid = targetProc.sid then pure true
  else pure (c.uid = t.uid || c.uid = t.euid || c.uid = t.suid ||
    c.euid = t.uid || c.euid = t.euid || c.euid = t.suid)

structure KillDelivery where
  found : Bool
  permitted : Bool
  delivered : Bool
  deriving DecidableEq, Repr

def deliverKillTarget (target : Pid) :
    State × KillDelivery :=
  let (s, delivery) := acc
  let delivery := { delivery with found := true }
  if (s.canSignalCurrent target (signal.map number)).getD false then
    let delivery := { delivery with permitted := true }
    match signal with
    | none => (s, delivery)
    | some signal =>
      let (s, sent) := s.send target signal
      (s, { delivery with delivered := delivery.delivered || sent })
  else (s, delivery)

def deliverKillPgrp :
    State × KillDelivery :=
  walk (fun acc => acc.1.nextPidInPgrpAfter pgrp) (deliverKillTarget signal)
    acc.1.pids.length 0 acc

def deliverKillAll (caller : Pid) (signal : Option Signal) (acc : State × KillDelivery) :
    State × KillDelivery :=
  walk (fun acc => acc.1.nextProcessPidAfter)
    (fun acc target =>
      if target = caller ∨ target = 1 then acc else deliverKillTarget signal acc target)
    acc.1.pids.length 0 acc

def killSignal (sig : ℕ) : Except Errno (Option Signal) :=
  if sig = 0 then .ok none
  else match fromNumber sig with
    | some signal => .ok (some signal)
    | none => .error .einval

def linuxKill (pid : ℤ) (sig : ℕ) : Except Errno ℕ × State :=
  match killSignal sig with
  | .error e => (.error e, s)
  | .ok signal =>
    let none : KillDelivery := ⟨false, false, false⟩
    let done : Except Errno (State × KillDelivery) :=
      if pid < -1 then
        -- `checked_neg` fails on the least `i64`
        if pid = -2 ^ 63 then .error .einval
        else .ok (deliverKillPgrp (-pid).toNat signal (s, none))
      else if pid = -1 then
        match s.current with
        | Option.none => .error .esrch
        | some caller => .ok (deliverKillAll caller signal (s, none))
      else if pid = 0 then
        match s.currentProcess with
        | Option.none => .error .esrch
        | some p => .ok (deliverKillPgrp p.pgrp signal (s, none))
      else if (s.get pid.toNat).isSome then .ok (deliverKillTarget signal (s, none) pid.toNat)
      else .ok (s, none)
    match done with
    | .error e => (.error e, s)
    | .ok (s, delivery) =>
      if !delivery.found then (.error .esrch, s)
      else if !delivery.permitted then (.error .eperm, s)
      else if signal.isSome && !delivery.delivered then (.error .esrch, s)
      else (.ok 0, s)

inductive WaitSelector where
  | any
  | process (pid : Pid)
  | processGroup (pgrp : Pid)
  deriving DecidableEq, Repr

def WaitSelector.matchesProcess (parent : Pid) (p : Process) : Bool :=
  p.parent = some parent && match selector with
    | .any => true
    | .process pid => p.pid = pid
    | .processGroup pgrp => p.pgrp = pgrp

inductive WaitStatus where
  | exited (status : ℤ)
  | signaled (signal : ℕ)
  | stopped (signal : ℕ)
  | continued
  deriving DecidableEq, Repr

def WaitStatus.ofReason : ExitReason → WaitStatus
  | .exited status => .exited status
  | .signaled signal => .signaled signal

/-- The status word of `wait4`. -/
def WaitStatus.encoded : WaitStatus → ℕ
  | .exited status => (status % 256).toNat * 256
  | .signaled signal => signal
  | .stopped signal => signal * 256 + 127
  | .continued => 65535

def peekStopped : Option (Pid × WaitStatus) :=
  match s.processes.entries.find? fun p =>
      selector.matchesProcess parent p && !p.stopReported && p.state.isStopped with
  | some p =>
    match p.state with
    | .stopped signal => some (p.pid, .stopped signal)
    | _ => none
  | none => none

def peekContinued :
    Option (Pid × WaitStatus) :=
  (s.processes.entries.find? fun p =>
    selector.matchesProcess parent p && p.continuedReportPending).map fun p => (p.pid, .continued)

def peekZombie : Option (Pid × WaitStatus) :=
  match s.processes.entries.find? fun p =>
      selector.matchesProcess parent p && p.state.isZombie with
  | some p =>
    match p.state with
    | .zombie reason => some (p.pid, .ofReason reason)
    | _ => none
  | none => none

def peekWaitAny
    (includeStopped includeContinued : Bool) : Option (Pid × WaitStatus) :=
  (if includeStopped then s.peekStopped parent selector else none).orElse fun _ =>
    (if includeContinued then s.peekContinued parent selector else none).orElse fun _ =>
      s.peekZombie parent selector

def markWaitedStopped (parent child : Pid) : Bool × State :=
  match s.get child with
  | none => (false, s)
  | some p =>
    if p.parent ≠ some parent ∨ !p.state.isStopped then (false, s)
    else (true, s.put { p with stopReported := true })

def markWaitedContinued (parent child : Pid) : Bool × State :=
  match s.get child with
  | none => (false, s)
  | some p =>
    if p.parent ≠ some parent ∨ !p.continuedReportPending then (false, s)
    else (true, s.put { p with continuedReportPending := false })

def reapWaitedZombie (parent child : Pid) : Bool × State :=
  match s.get child with
  | none => (false, s)
  | some p =>
    if p.parent ≠ some parent ∨ !p.state.isZombie then (false, s)
    else (true, s.reap child)

def hasWaitChild : Bool :=
  s.processes.entries.any fun p => selector.matchesProcess parent p

def waitSelector (pid : ℤ) : Except Errno WaitSelector :=
  if pid = -1 then .ok .any
  else if pid = 0 then
    match s.currentProcess with
    | none => .error .esrch
    | some p => .ok (.processGroup p.pgrp)
  else if pid < -1 then
    if pid = -2 ^ 63 then .error .einval else .ok (.processGroup (-pid).toNat)
  else .ok (.process pid.toNat)

/-- `write_user_buffer` of the running process: the lazy pages of the range become present, and
those that are copy-on-write writable. -/
def writeUserBuffer (addr len : ℕ) : Bool × State :=
  if len = 0 then (true, s)
  else match s.currentProcess with
    | none => (false, s)
    | some p =>
      let (ok, space, phys) := (s.spaces p.addressSpace).prepareUserWrite s.phys addr len
      (ok, s.setSpace p.addressSpace space phys)

/-- The bytes go into the memory of the running process. -/
def fillUser (addr : ℕ) (bytes : List UInt8) : State :=
  match s.currentProcess with
  | none => s
  | some p =>
    let space := s.spaces p.addressSpace
    s.setSpace p.addressSpace { space with memory := space.memory.blit addr bytes } s.phys

/-- `write_user_buffer(addr, len)`, filled with `bytes`. -/
def writeUser (addr : ℕ) (bytes : List UInt8) : Bool × State :=
  match s.writeUserBuffer addr bytes.length with
  | (false, s) => (false, s)
  | (true, s) => (true, s.fillUser addr bytes)

/-- A write that is skipped for a null pointer. -/
def writeUserOpt (addr : ℕ) (bytes : List UInt8) : Bool × State :=
  if addr = 0 then (true, s) else s.writeUser addr bytes

def u32Bytes (v : ℕ) : List UInt8 :=
  [v.toUInt8, (v / 256).toUInt8, (v / 65536).toUInt8, (v / 16777216).toUInt8]

/-- The outcome of one pass through the loop of a system call that may block. -/
inductive Attempt where
  | done (result : Except Errno ℕ)
  | blocked
  deriving Repr

def rusageSize : ℕ := 144

/-- One pass through the loop of `linux_wait4`. -/
def linuxWait4 (pid : ℤ) (statusPtr : ℕ) (nohang untraced continued : Bool)
    (rusagePtr : ℕ) : Attempt × State :=
  match s.current, s.waitSelector pid with
  | none, _ => (.done (.error .esrch), s)
  | some _, .error e => (.done (.error e), s)
  | some parent, .ok selector =>
    match s.peekWaitAny parent selector untraced continued with
    | some (waited, status) =>
      match s.writeUserOpt statusPtr (u32Bytes status.encoded) with
      | (false, s) => (.done (.error .efault), s)
      | (true, s) =>
        match s.writeUserOpt rusagePtr (List.replicate rusageSize 0) with
        | (false, s) => (.done (.error .efault), s)
        | (true, s) =>
          let (reported, s) := match status with
            | .stopped _ => s.markWaitedStopped parent waited
            | .continued => s.markWaitedContinued parent waited
            | _ => s.reapWaitedZombie parent waited
          if reported then (.done (.ok waited), s) else (.done (.error .echild), s)
    | none =>
      if !s.hasWaitChild parent selector then (.done (.error .echild), s)
      else if nohang then (.done (.ok 0), s)
      else (.blocked, s.blockCurrent (.waitChild 0))

/-- `process::wait`, which the `int 0x80` calls use. -/
def wait (parent child : Pid) : Option ℤ × State :=
  match s.get child with
  | none => (none, s)
  | some p =>
    if p.parent ≠ some parent then (none, s)
    else match p.state with
      | .zombie reason => (some reason.legacyStatus, s.reap child)
      | _ => (none, s.modify parent fun q => { q with state := .blocked (.waitChild child) })

def setsidCurrent : Option Pid × State :=
  match s.current with
  | none => (none, s)
  | some pid =>
    match s.get pid with
    | none => (none, s)
    | some p =>
      if p.pgrp = p.pid then (none, s)
      else (some p.pid, s.put { p with sid := p.pid, pgrp := p.pid, controllingTty := none })

inductive SetPgidError where
  | invalid
  | noSuchProcess
  | permissionDenied
  deriving DecidableEq, Repr

def setPgid (pid pgid : Pid) : Except SetPgidError Unit × State :=
  match s.current with
  | none => (.error .noSuchProcess, s)
  | some caller =>
    let targetPid := if pid = 0 then caller else pid
    let targetPgid := if pgid = 0 then targetPid else pgid
    if targetPid = 0 then (.error .invalid, s)
    else if targetPgid = 0 then (.error .invalid, s)
    else match s.get caller with
      | none => (.error .noSuchProcess, s)
      | some c =>
        match s.get targetPid with
        | none => (.error .noSuchProcess, s)
        | some target =>
          if target.pid ≠ caller ∧ target.parent ≠ some caller then (.error .permissionDenied, s)
          else if target.sid ≠ c.sid ∨ target.sid = target.pid then (.error .permissionDenied, s)
          else if targetPgid ≠ targetPid ∧ !(s.processes.entries.any fun p =>
              p.sid = c.sid && p.pgrp = targetPgid) then (.error .permissionDenied, s)
          else (.ok (), s.put { target with pgrp := targetPgid })

def takePendingSignalCurrent : Option (Pid × ℕ × ℤ) × State :=
  match s.current with
  | none => (none, s)
  | some pid =>
    match s.get pid with
    | none => (none, s)
    | some p =>
      match p.takePendingSignal with
      | (none, p) => (none, s.put p)
      | (some status, p) =>
        (some (pid, if 128 ≤ status then (status - 128).toNat else 0, status), s.put p)

def setCurrentSignalMask (mask : BitVec 64) : State :=
  s.modifyCurrent fun p => { p with signalMask := sanitizedSignalMask mask }

def setSignalAction (signal handler : ℕ) (mask : BitVec 64) (flags : ℕ) : State :=
  match s.get pid with
  | none => s
  | some p => s.put (p.setSignalAction signal handler mask flags)

/-- A new action for `rt_sigaction`: handler, mask and flags. -/
structure SigAction where
  handler : ℕ
  mask : BitVec 64
  flags : ℕ
  deriving DecidableEq, Repr

def linuxRtSigaction (signum : ℕ) (act : Option (Option SigAction)) :
    Except Errno ℕ × State :=
  if signum = 0 ∨ 32 ≤ signum then (.error .einval, s)
  else if act.isSome ∧ isUncatchableSignal signum then (.error .einval, s)
  else match s.current with
    | none => (.error .esrch, s)
    | some pid =>
      match act with
      | none => (.ok 0, s)
      | some none => (.error .efault, s)
      | some (some act) =>
        if act.flags &&& (2 ^ 32 - 1 - (signalFlagNocldstop ||| signalFlagRestart)) ≠ 0 then
          (.error .einval, s)
        else (.ok 0, s.setSignalAction pid signum act.handler act.mask act.flags)

inductive SigprocmaskHow where
  | block
  | unblock
  | setMask
  deriving DecidableEq, Repr

def linuxRtSigprocmask (how : SigprocmaskHow) (set : Option (Option (BitVec 64))) :
    Except Errno ℕ × State :=
  match s.currentProcess with
  | none => (.error .esrch, s)
  | some p =>
    match set with
    | none => (.ok 0, s)
    | some none => (.error .efault, s)
    | some (some set) =>
      let mask := match how with
        | .block => p.signalMask ||| set
        | .unblock => p.signalMask &&& ~~~set
        | .setMask => set
      (.ok 0, s.setCurrentSignalMask mask)

/-- `deliver_pending_signal`, without the frame: `caught` tells whether the handler's frame
fits on the user stack. -/
def deliverPendingSignal (caught : Bool) : Bool × State :=
  match s.takePendingSignalCurrent with
  | (none, s) => (false, s)
  | (some (pid, signum, status), s) =>
    if signum = 0 then (true, s.processExit pid (.exited status))
    else
      let handler := if isUncatchableSignal signum then defaultHandler else
        (s.get pid).elim defaultHandler fun p => p.signalHandler signum
      if handler = ignoreHandler then (false, s)
      else if handler ≠ defaultHandler ∧ caught then
        match s.get pid with
        | none => (true, s)
        | some p =>
          let actionMask := if h : signum < 32 then p.signalActionMasks ⟨signum, h⟩ else 0
          (true, s.setCurrentSignalMask (p.signalMask ||| actionMask ||| signalBit signum))
      else if (fromNumber signum).any hasStopDefault then
        (true, (s.stopCurrentSignal pid signum).1)
      else (true, s.processExit pid (.signaled signum))

/-- `duplicate_fd_entries`. What was duplicated is closed again after a failure. -/
def duplicateFdEntries (v : Vfs) (done : List FdEntry) :
    List FdEntry → Except VfsError (List FdEntry) × Vfs
  | [] => (.ok done, v)
  | entry :: entries =>
    match v.duplicateFd entry.vfsFd with
    | .error e => (.error e, v.closeAll (done.map FdEntry.vfsFd))
    | .ok (fd, v) => duplicateFdEntries v (done ++ [{ entry with vfsFd := fd }]) entries

def duplicateSharedMappings (v : Vfs) (done : List ℕ) :
    List ℕ → Except VfsError (List ℕ) × Vfs
  | [] => (.ok done, v)
  | fd :: fds =>
    match v.duplicateFd fd with
    | .error e => (.error e, v.closeAll done)
    | .ok (fd, v) => duplicateSharedMappings v (done ++ [fd]) fds

inductive ForkError where
  | noSuchProcess
  | outOfMemory
  | invalidProcessState
  deriving DecidableEq, Repr

def mapForkVfsError : VfsError → ForkError
  | .outOfMemory | .tooManyOpenFiles => .outOfMemory
  | _ => .invalidProcessState

def mapForkPagingError : PagingError → ForkError
  | .outOfFrames | .refcountOverflow | .refcountUnavailable => .outOfMemory
  | _ => .invalidProcessState

/-- `Process::clone_process`, then the fields `fork` sets. `root` is the frame allocated for the
root table of the copied address space. A copy that is not needed is destroyed, but the pages of
the parent stay copy-on-write. -/
def fork (root : ℕ) : Except ForkError Pid × State :=
  match s.get parent with
  | none => (.error .noSuchProcess, s)
  | some p =>
    match (s.spaces p.addressSpace).cloneFullCopy s.phys root with
    | .error e => (.error (mapForkPagingError e), s)
    | .ok (space, clone, phys) =>
      match duplicateFdEntries s.vfs [] p.fds with
      | (.error e, v) => (.error (mapForkVfsError e),
          { s.setSpace p.addressSpace space (clone.clearUserPages phys).2 with vfs := v })
      | (.ok fds, v) =>
        match duplicateSharedMappings v [] p.sharedMappings with
        | (.error e, v) => (.error (mapForkVfsError e),
            { s.setSpace p.addressSpace space (clone.clearUserPages phys).2 with
              vfs := v.closeAll (fds.map FdEntry.vfsFd) })
        | (.ok mappings, v) =>
          let child : Process := { p with
            pid := s.nextPid
            parent := some parent
            pendingSignals := 0
            pendingSignalStatus := none
            state := .ready
            addressSpace := s.nextSpace
            fds := fds
            sharedMappings := mappings
            timedWait := none
            exitStatus := none
            stopReported := false
            continuedReportPending := false
            waiters := []
            savedSyscall := none
            interruptedSyscall := false
            clearChildTid := 0 }
          let s := { (s.setSpace p.addressSpace space phys).setSpace s.nextSpace clone phys with
            processes := s.processes.push child
            nextPid := s.nextPid + 1
            nextSpace := s.nextSpace + 1
            vfs := v }
          (.ok child.pid, s.enqueue child.pid)

/-- The frame a new thread starts from. -/
def threadFrame (entry arg stackTop : ℕ) : Frame where
  rax := 0
  rbx := 0
  rcx := 0
  rdx := 0
  rsi := 0
  rdi := arg
  rbp := 0
  r8 := 0
  r9 := 0
  r10 := 0
  r11 := 0
  r12 := 0
  r13 := 0
  r14 := 0
  r15 := 0
  rip := entry
  cs := 0x33
  rflags := 0x202
  rsp := stackTop
  ss := 0x2b

/-- `clone_thread`: a process that shares the address space of its parent. -/
def cloneThread (entry arg stackTop clearChildTid : ℕ) :
    Except ForkError Pid × State :=
  match s.get parent with
  | none => (.error .noSuchProcess, s)
  | some p =>
    match duplicateFdEntries s.vfs [] p.fds with
    | (.error e, v) => (.error (mapForkVfsError e), { s with vfs := v })
    | (.ok fds, v) =>
      match (s.spaces p.addressSpace).prepareTid s.phys clearChildTid with
      | (false, space, phys) => (.error .invalidProcessState,
          { s.setSpace p.addressSpace space phys with vfs := v.closeAll (fds.map FdEntry.vfsFd) })
      | (true, space, phys) =>
        let child : Process := { p with
          pid := s.nextPid
          parent := some parent
          pendingSignals := 0
          pendingSignalStatus := none
          state := .ready
          fds := fds
          sharedMappings := []
          timedWait := none
          exitStatus := none
          stopReported := false
          continuedReportPending := false
          waiters := []
          savedSyscall := some (threadFrame entry arg stackTop)
          interruptedSyscall := false
          clearChildTid := clearChildTid }
        let memory :=
          if clearChildTid ≠ 0 then space.memory.setU32 clearChildTid s.nextPid else space.memory
        let s := { s.setSpace p.addressSpace { space with memory := memory } phys with
          processes := s.processes.push child
          nextPid := s.nextPid + 1
          vfs := v }
        (.ok child.pid, s.enqueue child.pid)

/-- A program that `execve` has checked: its file's owner, group and mode, and the address space to
make of it, with the frame for its root table, the pages to map and what they hold then. -/
structure ExecImage where
  owner : ℕ
  group : ℕ
  mode : ℕ
  p4Phys : ℕ
  protection : ℕ → Option UserProtection
  pages : List ℕ
  memory : Buf

/-- The memory part of `prepare_exec`. If a page cannot be mapped, the new address space is
destroyed. -/
def ExecImage.prepare (image : ExecImage) (phys : PhysicalMemory) :
    Option AddressSpace × PhysicalMemory :=
  let space := { AddressSpace.newKernelClone image.p4Phys with protection := image.protection }
  match AddressSpace.eachPage (fun space phys page =>
      (space.protection page).bind (space.mapZeroPageWithProtection phys page))
      image.pages space phys with
  | (false, space, phys) => (none, (space.clearUserPages phys).2)
  | (true, space, phys) => (some { space with memory := image.memory }, phys)

/-- `Vec::swap_remove`. -/
def swapRemove {α : Type} (l : List α) (i : ℕ) : List α :=
  match l.getLast? with
  | none => l
  | some last => (l.set i last).dropLast

/-- `close_on_exec_fds`, from `index` on; each turn removes an entry or steps over one. -/
def closeOnExecFds : ℕ → ℕ → List FdEntry → Vfs → List FdEntry × Vfs
  | 0, _, fds, v => (fds, v)
  | n + 1, index, fds, v =>
    match fds[index]? with
    | none => (fds, v)
    | some entry =>
      if entry.fdFlags &&& fdCloexec ≠ 0 then
        closeOnExecFds n index (swapRemove fds index) (v.close entry.vfsFd).2
      else closeOnExecFds n (index + 1) fds v

def resetCaughtSignalHandlersForExec (p : Process) : Process :=
  { p with
    signalHandlers := fun i =>
      if p.signalHandlers i ≠ ignoreHandler then defaultHandler else p.signalHandlers i
    signalFlags := fun i => if p.signalHandlers i ≠ ignoreHandler then 0 else p.signalFlags i }

/-- `exec_for_user_inner` once the image is checked. -/
def execForUser (image : ExecImage) : State :=
  match s.get pid with
  | none => s
  | some p =>
    match image.prepare s.phys with
    | (none, phys) => { s with phys := phys }
    | (some space, phys) =>
      let v := s.vfs.closeAll p.sharedMappings
      let (fds, v) := closeOnExecFds p.fds.length 0 p.fds v
      let q := resetCaughtSignalHandlersForExec { p with
        addressSpace := s.nextSpace
        sharedMappings := []
        fds := fds
        timedWait := none
        clearChildTid := 0
        credentials := { p.credentials with
          euid := if image.mode &&& 0o4000 ≠ 0 then image.owner else p.credentials.euid
          egid := if image.mode &&& 0o2000 ≠ 0 then image.group else p.credentials.egid }
        state := .running }
      { (s.put q).setSpace s.nextSpace space phys with
        nextSpace := s.nextSpace + 1
        vfs := v }.destroyAddressSpaceHandle p.addressSpace

end State
end Ristux.Kernel
