import Ristux.Kernel.Exit

-- The run queue of `sched/mod.rs` and the functions that make blocked processes ready. A loop
-- that looks for the next waiter from the start of the table is written as one pass over it.

namespace Ristux.Kernel

namespace State
variable (s : State)

def isRunnable (pid : Pid) : Bool := (s.get pid).any fun p => p.state = .ready

def enqueue (pid : Pid) : State :=
  if pid ∈ s.runQueue then s else { s with runQueue := s.runQueue ++ [pid] }

def wakeBlocked (pid : Pid) : State := if s.isRunnable pid then s.enqueue pid else s

/-- Whether `wake_next_io_waiter` wakes a process: any waiter without a time, and the waiters
whose deadline has passed with one. -/
def ioWaiterIsDue : ProcessState → Option ℕ → Bool
  | .blocked .waitIo, none => true
  | .blocked (.waitIoUntil _), none => true
  | .blocked (.waitIoUntil deadline), some now => deadline ≤ now
  | _, _ => false

def wakeIoWaiter (now : Option ℕ) (s : State) (pid : Pid) : State :=
  match s.get pid with
  | none => s
  | some p =>
    if ioWaiterIsDue p.state now then (s.put { p with state := .ready }).wakeBlocked pid else s

def wakeIoWaiters : State := s.pids.foldl (wakeIoWaiter none) s

def wakeExpiredIoWaiters (now : ℕ) : State := s.pids.foldl (wakeIoWaiter (some now)) s

def wakeIoWaitersFor (pid : Pid) : State :=
  match s.get pid with
  | none => s
  | some p =>
    if p.state.isIoBlocked then (s.put { p with state := .ready }).wakeBlocked pid else s

/-- One turn of `wake_timed_waiters`. -/
def wakeTimedWaiter (key : BitVec 64) (limit : ℕ) (acc : State × ℕ) (pid : Pid) : State × ℕ :=
  let (s, woken) := acc
  if limit ≤ woken then (s, woken)
  else match s.get pid with
    | none => (s, woken)
    | some p =>
      match p.timedWait with
      | none => (s, woken)
      | some wait =>
        if wait.key = key ∧ wait.woken = false then
          let p := { p with
            timedWait := some { wait with woken := true }
            state := if p.state.isIoBlocked then .ready else p.state }
          ((s.put p).wakeBlocked pid, woken + 1)
        else (s, woken)

def wakeTimedWaiters (key : BitVec 64) (limit : ℕ) : State × ℕ :=
  s.pids.foldl (wakeTimedWaiter key limit) (s, 0)

def wakeAllRunnableProcesses : State := (s.pids.insertionSort (· ≤ ·)).foldl wakeBlocked s

def wakeProcesses (wake : WakeList) : State :=
  let s := wake.timedWaits.foldl (fun s wait => (s.wakeTimedWaiters wait.key wait.limit).1) s
  let s := wake.pids.foldl wakeBlocked s
  if wake.overflow then s.wakeAllRunnableProcesses else s

/-- The first runnable process of the queue; those before it are dropped. -/
def dispatchLocal : Option Pid × State :=
  match s.runQueue.dropWhile fun pid => !s.isRunnable pid with
  | [] => (none, { s with runQueue := [] })
  | pid :: rest => (some pid, { s with runQueue := rest })

/-- The state of each process after `set_current(pid)`. -/
def runningState (pid : Pid) (p : Process) : ProcessState :=
  if p.pid = pid then .running
  else if p.state = .running then .ready
  else p.state

def setCurrent (pid : Pid) : State :=
  s.pids.foldl (fun s i => s.modify i fun p => { p with state := runningState pid p })
    { s with current := some pid }

def markReady (pid : Pid) : Bool × State :=
  match s.get pid with
  | none => (false, s)
  | some p =>
    if p.state.isZombie || p.state.isStopped then (false, s)
    else (true, s.put { p with state := .ready })

/-- `with_current`: nothing happens without a current process in the table. -/
def modifyCurrent (f : Process → Process) : State :=
  match s.current with
  | some pid => s.modify pid f
  | none => s

def currentProcess : Option Process := s.current.bind s.get

def blockCurrent (reason : BlockReason) : State :=
  s.modifyCurrent fun p => { p with state := .blocked reason }

def saveSyscallFrame (pid : Pid) (frame : Frame) : State :=
  s.modify pid fun p => { p with savedSyscall := some frame }

def restoreSyscallFrame (pid : Pid) : Option Frame × State :=
  match s.get pid with
  | none => (none, s)
  | some p =>
    match p.savedSyscall with
    | none => (none, s)
    | some frame => (some frame, s.put { p with savedSyscall := none })

theorem get_setCurrent (s : State) (pid i : Pid) :
    (s.setCurrent pid).get i = (s.get i).map fun p => { p with state := runningState pid p } := by
  have hget := get_foldl_modify (i := i) (fun p => { p with state := runningState pid p })
    (fun _ => rfl) s.pids { s with current := some pid } s.processes.distinct
  rw [setCurrent, hget]
  by_cases hi : i ∈ s.pids
  · rw [if_pos hi]
    rfl
  have hn : s.get i = none := by
    by_contra h
    obtain ⟨p, hp⟩ := Option.ne_none_iff_exists'.1 h
    exact hi (mem_pids.2 ⟨p, hp⟩)
  rw [if_neg hi, hn]
  exact hn

end State
end Ristux.Kernel
