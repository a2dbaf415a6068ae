import Ristux.Kernel.AddressSpace
import Ristux.Kernel.Signal

-- The records of `process/mod.rs`, the address spaces and the frames behind them, the open files
-- and pipes of the virtual file system, and the run queue.

namespace Ristux.Kernel
open Ristux.Lib List
open Memory (PhysicalMemory)

abbrev Pid := ℕ

def initPid : Pid := 1
def maxFds : ℕ := 256
def fdCloexec : ℕ := 1
def signalFlagNocldstop : ℕ := 1
def signalFlagRestart : ℕ := 2

inductive ExitReason where
  | exited (status : ℤ)
  | signaled (signal : ℕ)
  deriving DecidableEq, Repr

def ExitReason.legacyStatus : ExitReason → ℤ
  | .exited status => status
  | .signaled signal => 128 + signal

inductive BlockReason where
  | waitChild (pid : Pid)
  | waitIo
  | waitIoUntil (deadline : ℕ)
  deriving DecidableEq, Repr

inductive ProcessState where
  | ready
  | running
  | blocked (reason : BlockReason)
  | stopped (signal : ℕ)
  | zombie (reason : ExitReason)
  deriving DecidableEq, Repr

def ProcessState.isZombie : ProcessState → Bool
  | .zombie _ => true
  | _ => false

def ProcessState.isStopped : ProcessState → Bool
  | .stopped _ => true
  | _ => false

def ProcessState.isBlocked : ProcessState → Bool
  | .blocked _ => true
  | _ => false

/-- Blocked on input or output, with or without a deadline. -/
def ProcessState.isIoBlocked : ProcessState → Bool
  | .blocked .waitIo | .blocked (.waitIoUntil _) => true
  | _ => false

theorem ProcessState.isZombie_of_isIoBlocked {state : ProcessState} (h : state.isIoBlocked) :
    state.isZombie = false := by
  cases state <;> first | rfl | simp [isIoBlocked] at h

structure Credentials where
  uid : ℕ
  gid : ℕ
  euid : ℕ
  egid : ℕ
  suid : ℕ
  sgid : ℕ
  groups : Fin 8 → ℕ
  groupCount : ℕ

def Credentials.root : Credentials where
  uid := 0
  gid := 0
  euid := 0
  egid := 0
  suid := 0
  sgid := 0
  groups := fun _ => 0
  groupCount := 1

def Credentials.isSuperuser (c : Credentials) : Bool := c.euid = 0

structure PipeState where
  buffer : List UInt8
  capacity : ℕ
  readers : ℕ
  writers : ℕ
  deriving DecidableEq, Repr

/-- An open file. Only the ends of a pipe are told apart: the other kinds of handle neither
hold a pipe nor wake anyone when they are released. -/
inductive OpenHandle where
  | pipeRead (pipe : ℕ)
  | pipeWrite (pipe : ℕ)
  | other
  deriving DecidableEq, Repr

structure Vfs where
  openFiles : List (Option OpenHandle)
  pipes : List PipeState
  -- how long the two tables can get before the allocator fails
  fileRoom : ℕ
  pipeRoom : ℕ
  deriving DecidableEq, Repr

inductive VfsError where
  | badFd
  | wouldBlock
  | brokenPipe
  | tooManyOpenFiles
  | outOfMemory
  deriving DecidableEq, Repr

structure FdEntry where
  userFd : ℕ
  vfsFd : ℕ
  statusFlags : ℕ
  fdFlags : ℕ
  deriving DecidableEq, Repr

structure TimedWait where
  key : BitVec 64
  deadline : ℕ
  woken : Bool
  deriving DecidableEq, Repr

inductive ControllingTty where
  | console
  | pty (index : ℕ)
  deriving DecidableEq, Repr

/-- `SavedSyscallFrame`, which mirrors `SyscallInterruptFrame`. -/
structure Frame where
  rax : ℕ
  rbx : ℕ
  rcx : ℕ
  rdx : ℕ
  rsi : ℕ
  rdi : ℕ
  rbp : ℕ
  r8 : ℕ
  r9 : ℕ
  r10 : ℕ
  r11 : ℕ
  r12 : ℕ
  r13 : ℕ
  r14 : ℕ
  r15 : ℕ
  rip : ℕ
  cs : ℕ
  rflags : ℕ
  rsp : ℕ
  ss : ℕ
  deriving DecidableEq, Repr

/-- A process. Address spaces are shared by reference, so `addressSpace` is the identity of
one; of a shared mapping only the open file it holds is kept. -/
structure Process where
  pid : Pid
  parent : Option Pid
  pgrp : Pid
  sid : Pid
  controllingTty : Option ControllingTty
  pendingSignals : BitVec 64
  pendingSignalStatus : Option ℤ
  signalMask : BitVec 64
  signalHandlers : Fin 32 → ℕ
  signalActionMasks : Fin 32 → BitVec 64
  signalFlags : Fin 32 → ℕ
  state : ProcessState
  addressSpace : ℕ
  credentials : Credentials
  rlimitNofileCur : ℕ
  fds : List FdEntry
  socketHandles : List ℕ
  sharedMappings : List ℕ
  timedWait : Option TimedWait
  exitStatus : Option ℤ
  stopReported : Bool
  continuedReportPending : Bool
  waiters : List Pid
  savedSyscall : Option Frame
  interruptedSyscall : Bool
  clearChildTid : ℕ

/-- `new_user`, over an address space that is already there. -/
def Process.newUser (pid : Pid) (parent : Option Pid) (addressSpace : ℕ)
    (credentials : Credentials) : Process where
  pid := pid
  parent := parent
  pgrp := pid
  sid := parent.getD pid
  controllingTty := some .console
  pendingSignals := 0
  pendingSignalStatus := none
  signalMask := 0
  signalHandlers := fun _ => 0
  signalActionMasks := fun _ => 0
  signalFlags := fun _ => 0
  state := .ready
  addressSpace := addressSpace
  credentials := credentials
  rlimitNofileCur := maxFds
  fds := []
  socketHandles := []
  sharedMappings := []
  timedWait := none
  exitStatus := none
  stopReported := false
  continuedReportPending := false
  waiters := []
  savedSyscall := none
  interruptedSyscall := false
  clearChildTid := 0

/-- The kernel: the process table, the running process, the address spaces, the frames of user
pages, the open files and the run queue of the one processor that runs user code. An address space
is destroyed with the last reference to it; `held` are the references that functions in progress
have, beside those of the process table. -/
structure State where
  processes : Keyed Process Process.pid
  nextPid : Pid
  current : Option Pid
  spaces : ℕ → AddressSpace
  nextSpace : ℕ
  phys : PhysicalMemory
  held : List ℕ
  vfs : Vfs
  runQueue : List Pid

variable (f : Process → Process)

namespace State

/-- The table after `spawn_init`: init has the terminal open for input and the console for
output. -/
def boot (p4Phys : ℕ) (phys : PhysicalMemory) : State where
  processes := ⟨[{ Process.newUser initPid none 0 .root with
    fds := [⟨0, 0, 0, 0⟩, ⟨1, 1, 0, 0⟩, ⟨2, 1, 0, 0⟩] }], nodup_singleton _⟩
  nextPid := initPid + 1
  current := none
  spaces := fun _ => .newKernelClone p4Phys
  nextSpace := 1
  phys := phys
  held := []
  vfs := ⟨[some .other, some .other], [], 1024, 1024⟩
  runQueue := []

/-- A machine with little memory. -/
abbrev booted : State := boot 0 (.unused 64)

variable (s : State)

def get (pid : Pid) : Option Process := s.processes.get pid

def put (p : Process) : State := { s with processes := s.processes.put p }

def pids : List Pid := s.processes.entries.map Process.pid

/-- `table.get_mut(pid)` followed by an assignment; nothing happens without such a process. -/
def modify (pid : Pid) (f : Process → Process) : State :=
  match s.get pid with
  | some p => s.put (f p)
  | none => s

/-- `Arc::strong_count` of an address space. -/
def strongCount (i : ℕ) : ℕ :=
  s.processes.entries.countP (fun p => p.addressSpace = i) + s.held.count i

def setSpace (i : ℕ) (space : AddressSpace) (phys : PhysicalMemory) : State :=
  { s with spaces := Function.update s.spaces i space, phys := phys }

def clearUserPages (i : ℕ) : State :=
  let (space, phys) := (s.spaces i).clearUserPages s.phys
  s.setSpace i space phys

/-- `destroy_address_space_handle`, once its process has no reference any more. -/
def destroyAddressSpaceHandle (i : ℕ) : State :=
  if s.strongCount i = 0 then s.clearUserPages i else s

def isZombie (pid : Pid) : Bool := (s.get pid).any fun p => p.state.isZombie

/-- In the table and not a zombie. -/
def isLive (pid : Pid) : Bool := (s.get pid).any fun p => !p.state.isZombie

variable {s : State}

theorem pid_of_get (h : s.get pid = some p) : p.pid = pid := Keyed.key_of_get h

theorem get_put : (s.put p).get i = if i = p.pid then (s.get i).map fun _ => p else s.get i :=
  Keyed.get_put

theorem get_put_of_ne (h : i ≠ p.pid) : (s.put p).get i = s.get i := Keyed.get_put_of_ne h

theorem get_put_self (h : s.get p.pid = some q) : (s.put p).get p.pid = some p :=
  Keyed.get_put_self h

theorem put_self {p : Process} (h : s.get p.pid = some p) : s.put p = s := by
  simp only [put, Keyed.put_self h]

theorem put_put (h : p.pid = q.pid) : (s.put p).put q = s.put q := by
  simp only [put, Keyed.put_put h]

@[simp] theorem pids_put : (s.put p).pids = s.pids := Keyed.keys_put

theorem mem_pids : i ∈ s.pids ↔ ∃ p, s.get i = some p := Keyed.mem_keys_iff

theorem get_modify (hf : ∀ p, (f p).pid = p.pid) :
    (s.modify pid f).get i = if i = pid then (s.get i).map f else s.get i := by
  unfold modify
  cases h : s.get pid with
  | none => by_cases hi : i = pid <;> simp [hi, h]
  | some p =>
    have hp := pid_of_get h
    by_cases hi : i = pid
    · subst hi
      simp [get_put, hf, hp, h]
    · simp [get_put, hf, hp, hi]

/-- A pass over distinct pids changes each process of the list once. -/
theorem get_foldl_modify (hf : ∀ p, (f p).pid = p.pid) (l : List Pid) (s : State) (hl : l.Nodup) :
    (l.foldl (fun s j => s.modify j f) s).get i = if i ∈ l then (s.get i).map f else s.get i := by
  induction l generalizing s with
  | nil => simp
  | cons j l ih =>
    obtain ⟨hj, hl⟩ := nodup_cons.1 hl
    rw [foldl_cons, ih _ hl, get_modify f hf]
    by_cases hi : i = j
    · subst hi
      simp [hj]
    · simp [hi]

@[simp] theorem put_vfs : (s.put p).vfs = s.vfs := rfl
end State
end Ristux.Kernel
