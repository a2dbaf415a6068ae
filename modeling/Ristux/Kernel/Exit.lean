import Ristux.Kernel.Pending
import Ristux.Kernel.Pipe

-- `ProcessTable` of `process/mod.rs`.

namespace Ristux.Kernel
open Ristux.Lib

structure TimedWaitWake where
  key : BitVec 64
  limit : ℕ
  deriving DecidableEq, Repr

structure WakeList where
  pids : List Pid
  overflow : Bool
  timedWaits : List TimedWaitWake
  timedWaitOverflow : Bool
  deriving DecidableEq, Repr

namespace WakeList

def maxWakePids : ℕ := maxFds
def maxWakeTimedWaits : ℕ := 4

def new : WakeList where
  pids := []
  overflow := false
  timedWaits := []
  timedWaitOverflow := false

def pushUnique (w : WakeList) (pid : Pid) : WakeList :=
  if pid ∈ w.pids then w
  else if w.pids.length = maxWakePids then { w with overflow := true }
  else { w with pids := w.pids ++ [pid] }

def pushTimedWaitKey (w : WakeList) (key : BitVec 64) (limit : ℕ) : WakeList :=
  if w.timedWaits.any fun wait => wait.key = key then w
  else if w.timedWaits.length = maxWakeTimedWaits then { w with timedWaitOverflow := true }
  else { w with timedWaits := w.timedWaits ++ [⟨key, limit⟩] }

def extend (w other : WakeList) : WakeList :=
  let w := other.pids.foldl pushUnique w
  let w := if other.overflow then { w with overflow := true } else w
  let w := other.timedWaits.foldl (fun w wait => w.pushTimedWaitKey wait.key wait.limit) w
  if other.timedWaitOverflow then { w with timedWaitOverflow := true } else w

end WakeList

def nrFutex : ℕ := 202

def timedWaitKey (nr a0 a1 a2 : ℕ) : BitVec 64 :=
  (BitVec.ofNat 64 nr).rotateLeft 48 ^^^ (BitVec.ofNat 64 a0).rotateLeft 17 ^^^
    (BitVec.ofNat 64 a1).rotateLeft 7 ^^^ BitVec.ofNat 64 a2

def clearChildTidWaitKey (clearTid addressSpaceKey : ℕ) : BitVec 64 :=
  timedWaitKey nrFutex clearTid addressSpaceKey 0

inductive SigchldEvent where
  | exited
  | jobControl
  deriving DecidableEq, Repr

/-- What is left of a process that exits. -/
def Process.zombified (p : Process) (reason : ExitReason) : Process :=
  { p with
    state := .zombie reason
    exitStatus := some reason.legacyStatus
    clearChildTid := 0
    sharedMappings := []
    fds := []
    socketHandles := []
    waiters := [] }

/-- The reason for an exit that a status stands for. -/
def ExitReason.ofStatus (status : ℤ) : ExitReason :=
  match signalFromLegacyStatus status with
  | some signal => .signaled signal
  | none => .exited status

/-- `exit_with_reason`, as the functions that call it see it. -/
abbrev Exit := State → Pid → ExitReason → State × WakeList

variable (s : State) (exit : Exit) (pid : Pid) (pgrp : Pid)

namespace State

def wakeWaiterForChild (waiter child : Pid) (wake : WakeList) : State × WakeList :=
  match s.get waiter with
  | none => (s, wake)
  | some p =>
    match p.state with
    | .blocked (.waitChild waitChild) =>
      if waitChild = child ∨ waitChild = 0 then
        (s.put { p with state := .ready }, wake.pushUnique waiter)
      else (s, wake)
    | _ => (s, wake)

def queueSigchld (parent : Pid) (event : SigchldEvent) : State :=
  match s.get parent with
  | none => s
  | some p =>
    if event = .jobControl ∧ p.signalFlags 17 &&& signalFlagNocldstop ≠ 0 then s
    else if p.isIgnoredSignal Signal.child.defaultStatus then s
    else if p.shouldQueueSignal Signal.child.defaultStatus s.current then
      s.put (p.queueSignal Signal.child.defaultStatus)
    else s

def wakeWaitersFor : State × WakeList :=
  let waiters := match s.get pid with
    | some p => p.waiters
    | none => []
  let s := s.modify pid fun p => { p with waiters := [] }
  let (s, wake) :=
    waiters.foldl (fun (s, wake) waiter => wakeWaiterForChild s waiter pid wake) (s, .new)
  match (s.get pid).bind Process.parent with
  | some parent => s.wakeWaiterForChild parent pid wake
  | none => (s, wake)

def stop (signal : ℕ) : State × Option WakeList :=
  match s.get pid with
  | none => (s, none)
  | some p =>
    if p.state.isZombie then (s, some .new)
    else
      let s := s.put { p with
        state := .stopped signal
        exitStatus := none
        stopReported := false
        continuedReportPending := false }
      let s := if s.current = some pid then { s with current := none } else s
      let s := match p.parent with
        | some parent => s.queueSigchld parent .jobControl
        | none => s
      let (s, wake) := s.wakeWaitersFor pid
      (s, some wake)

def continueProcess : State × Option WakeList :=
  match s.get pid with
  | none => (s, none)
  | some p =>
    match p.state with
    | .stopped _ =>
      let s := s.put { p with
        state := .ready
        stopReported := false
        continuedReportPending := true }
      let wake := WakeList.new.pushUnique pid
      match p.parent with
      | some parent =>
        let s := s.queueSigchld parent .jobControl
        let (s, wake) := s.wakeWaiterForChild parent pid wake
        (s, some wake)
      | none => (s, some wake)
    | .zombie _ => (s, none)
    | _ => (s, some .new)

def signalWith (s : State) (pid : Pid) (status : ℤ) (current : Option Pid) :
    State × Option WakeList :=
  match s.get pid with
  | none => (s, none)
  | some p =>
    let p := p.discardPendingSignalInteractions status
    let s := s.put p
    if p.isIgnoredSignal status then (s, some .new)
    else if p.shouldQueueSignal status current then
      let p := p.queueSignal status
      if p.nextDeliverablePendingSignal.isSome && p.state.isBlocked then
        (s.put { p with interruptedSyscall := true, state := .ready },
          some (WakeList.new.pushUnique pid))
      else (s.put p, some .new)
    else
      match stopSignalFromStatus status with
      | some signal => s.stop pid signal
      | none =>
        let (s, wake) := exit s pid (.ofStatus status)
        (s, some wake)

def processGroupIsOrphaned : Bool :=
  s.processes.entries.all fun p =>
    if p.pgrp = pgrp ∧ !p.state.isZombie then
      match p.parent.bind s.get with
      | none => true
      | some parent =>
        parent.pid = initPid ||
          !(parent.sid = p.sid && parent.pgrp ≠ p.pgrp && !parent.state.isZombie)
    else true

def processGroupHasStoppedMember : Bool :=
  s.processes.entries.any fun p => p.pgrp = pgrp && p.state.isStopped

def processGroupMembers : List Pid :=
  (s.processes.entries.filter fun p => p.pgrp = pgrp && !p.state.isZombie).map Process.pid

/-- One turn of the loop of `signal_process_group`: SIGCONT continues the process first. -/
def continueMember (signal : Signal) (acc : State × WakeList) (pid : Pid) : State × WakeList :=
  let (s, wake) := acc
  if signal = .cont then
    match s.continueProcess pid with
    | (s, some continued) => (s, wake.extend continued)
    | (s, none) => (s, wake)
  else (s, wake)

def signalMemberWith (signal : Signal) (acc : State × WakeList) (pid : Pid) :
    State × WakeList :=
  let (s, wake) := continueMember signal acc pid
  match s.signalWith exit pid signal.defaultStatus s.current with
  | (s, some signalWake) => (s, wake.extend signalWake)
  | (s, none) => (s, wake)

def signalProcessGroupWith (s : State) (pgrp : Pid) (signal : Signal)
    (wake : WakeList) : State × WakeList :=
  (s.processGroupMembers pgrp).foldl (signalMemberWith exit signal) (s, wake)

/-- One turn of the loop of `notify_orphaned_stopped_groups`. -/
def notifyOrphanedStoppedGroupWith (acc : State × WakeList) (pgrp : Pid) :
    State × WakeList :=
  let (s, wake) := acc
  if s.processGroupIsOrphaned pgrp && s.processGroupHasStoppedMember pgrp then
    let (s, wake) := s.signalProcessGroupWith exit pgrp .hup wake
    s.signalProcessGroupWith exit pgrp .cont wake
  else (s, wake)

def notifyOrphanedStoppedGroupsWith (s : State) (candidates : List Pid)
    (wake : WakeList) : State × WakeList :=
  candidates.foldl (notifyOrphanedStoppedGroupWith exit) (s, wake)

/-- The process groups of the children, each once, in the order of the table. -/
def orphanCandidates (oldParent : Pid) : List Pid :=
  (s.processes.entries.filter fun p => p.parent = some oldParent).foldl
    (fun candidates p => if p.pgrp ∈ candidates then candidates else candidates ++ [p.pgrp]) []

/-- One turn of the loop of `reparent_children_to_init`. -/
def adoptChild (oldParent : Pid) (initExists : Bool) (acc : State × WakeList) (pid : Pid) :
    State × WakeList :=
  let (s, wake) := acc
  match s.get pid with
  | none => (s, wake)
  | some p =>
    if p.parent ≠ some oldParent then (s, wake)
    else
      let s := s.put { p with parent := if initExists then some initPid else none }
      if initExists && (p.state.isZombie || p.state.isStopped) then
        s.wakeWaiterForChild initPid pid wake
      else (s, wake)

def reparentChildrenToInitWith (s : State) (oldParent : Pid) (wake : WakeList) :
    State × WakeList :=
  if oldParent = initPid then (s, wake)
  else
    let candidates := s.orphanCandidates oldParent
    let (s, wake) := s.pids.foldl (adoptChild oldParent (s.get initPid).isSome) (s, wake)
    s.notifyOrphanedStoppedGroupsWith exit candidates wake

/-- `table.reap(pid)`, with what `Process::destroy` gives up: the descriptors and the reference to
the address space. -/
def reap : State :=
  match s.get pid with
  | none => s
  | some p =>
    { s with
      processes := s.processes.remove pid
      vfs := s.vfs.closeAll (p.sharedMappings ++ p.fds.map FdEntry.vfsFd)
      }.destroyAddressSpaceHandle p.addressSpace

def sameSpaceChildren (parent : Pid) (space : ℕ) : List Pid :=
  (s.processes.entries.filter fun p => p.parent = some parent && p.addressSpace = space).map
    Process.pid

def exitChildWith (reason : ExitReason) (acc : State × WakeList) (child : Pid) :
    State × WakeList :=
  let (s, wake) := acc
  if s.isLive child then
    let (s, childWake) := exit s child reason
    (s, wake.extend childWake)
  else (s, wake)

def reapZombie : State := if s.isZombie pid then s.reap pid else s

def exitAndReapSameSpaceChildrenWith (s : State) (parent : Pid) (space : ℕ)
    (reason : ExitReason) (wake : WakeList) : State × WakeList :=
  let children := s.sameSpaceChildren parent space
  let (s, wake) := children.foldl (exitChildWith exit reason) (s, wake)
  (children.foldl reapZombie s, wake)

/-- Clear the thread id word of an exiting thread and wake its futex, if the word may be
written. A copy-on-write page is made writable first, for which there may be no frame. -/
def clearTid (p : Process) : State × WakeList :=
  if p.clearChildTid = 0 then (s, .new)
  else
    match (s.spaces p.addressSpace).prepareTid s.phys p.clearChildTid with
    | (false, space, phys) => (s.setSpace p.addressSpace space phys, .new)
    | (true, space, phys) =>
      let privateKey := clearChildTidWaitKey p.clearChildTid space.p4Phys
      let sharedKey := clearChildTidWaitKey p.clearChildTid 0
      let wake := WakeList.new.pushTimedWaitKey privateKey usizeMax
      let wake := if sharedKey ≠ privateKey then wake.pushTimedWaitKey sharedKey usizeMax else wake
      (s.setSpace p.addressSpace
        { space with memory := space.memory.setU32 p.clearChildTid 0 } phys, wake)

/-- The first part of `exit_with_reason`. The pages are cleared here if the process has the only
reference to its address space. -/
def zombify (p : Process) (reason : ExitReason) : State × WakeList :=
  let (s, wake) := s.clearTid p
  let s := s.put (p.zombified reason)
  let lastAddressSpaceOwner := s.strongCount p.addressSpace = 1
  let s := { s with vfs := s.vfs.closeAll (p.sharedMappings ++ p.fds.map FdEntry.vfsFd) }
  let s := if lastAddressSpaceOwner then s.clearUserPages p.addressSpace else s
  ({ s with current := if s.current = some p.pid then none else s.current }, wake)

/-- References to address spaces that a function takes with `Arc::clone`. -/
def hold (spaces : List ℕ) : State := { s with held := spaces ++ s.held }

/-- They are dropped. That destroys nothing: an `AddressSpace` is destroyed by hand. -/
def letGo (spaces : List ℕ) : State := { s with held := s.held.diff spaces }

/-- The address space of the running process, unless that is the one that exits. -/
def currentAddressSpace : List ℕ :=
  if s.current = some pid then []
  else ((s.current.bind s.get).map Process.addressSpace).toList

/-- The end of `exit_with_reason`: those who wait for the process are woken, and its parent is
told. -/
def notifyExit (p : Process) (wake : WakeList) : State × WakeList :=
  let (s, wake) :=
    p.waiters.foldl (fun (s, wake) waiter => wakeWaiterForChild s waiter p.pid wake) (s, wake)
  match p.parent with
  | some parent => (s.queueSigchld parent .exited).wakeWaiterForChild parent p.pid wake
  | none => (s, wake)

/-- The process becomes a zombie while its exit has references to its address space and to that of
the running process. -/
def beginExit (p : Process) (reason : ExitReason) : State × WakeList :=
  (s.hold (p.addressSpace :: s.currentAddressSpace p.pid)).zombify p reason

/-- The body of `exit_with_reason`. The reference to the address space of the process lasts until
its threads have been reaped, the one to that of the running process until the end. -/
def exitStep (s : State) (pid : Pid) (reason : ExitReason) : State × WakeList :=
  match s.get pid with
  | none => (s, .new)
  | some p =>
    let running := s.currentAddressSpace p.pid
    let (s, wake) := s.beginExit p reason
    let (s, wake) := s.exitAndReapSameSpaceChildrenWith exit pid p.addressSpace reason wake
    let (s, wake) := (s.letGo [p.addressSpace]).reparentChildrenToInitWith exit pid wake
    let (s, wake) := s.notifyExit p wake
    (s.letGo running, wake)

def exitFuel : ℕ → Exit
  | 0 => fun s _ _ => (s, .new)
  | n + 1 => exitStep (exitFuel n)

/-- Each nested exit makes a zombie of another process, or ends one that an exit nested in the
same loop has made a zombie. -/
def exitDepth : ℕ := 2 * s.processes.entries.length + 2

def exitWithReason : Exit := fun s pid reason => exitFuel s.exitDepth s pid reason

def signal (status : ℤ) (current : Option Pid) :
    State × Option WakeList :=
  s.signalWith exitWithReason pid status current

def groupMembers (space : ℕ) : List Pid :=
  (s.processes.entries.filter fun p => p.addressSpace = space && !p.state.isZombie).map
    Process.pid

def internalMembers (members : List Pid) : List Pid :=
  (s.processes.entries.filter fun p =>
    p.pid ∈ members && p.parent.any fun parent => parent ∈ members).map Process.pid

/-- In ascending order, with the calling process last. -/
def exitOrder (members : List Pid) (pid : Pid) : List Pid :=
  let sorted := members.insertionSort (· ≤ ·)
  if pid ∈ sorted then sorted.erase pid ++ [pid] else sorted

def exitGroup (status : ℤ) : State × WakeList :=
  match s.get pid with
  | none => (s, .new)
  | some p =>
    let members := s.groupMembers p.addressSpace
    let internal := s.internalMembers members
    let (s, wake) := (exitOrder members pid).foldl
      (fun (s, wake) member =>
        let (s, exitWake) := s.exitWithReason member (.exited status)
        (s, wake.extend exitWake)) (s.hold [p.addressSpace], .new)
    ((internal.foldl reapZombie s).letGo [p.addressSpace], wake)

end State
end Ristux.Kernel
