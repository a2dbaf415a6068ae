import Ristux.Kernel.Files

-- A process has one slot for a timed wait. Its key tells the waits of different system calls and
-- of different futexes apart.

namespace Ristux.Kernel

def u64Max : ℕ := 2 ^ 64 - 1

namespace Process

/-- The deadline of the wait with this key, which starts unless it is under way; `none` when
the deadline overflows. -/
def timedWaitDeadline (p : Process) (key : BitVec 64) (timeout now : ℕ) :
    Option ℕ × Process :=
  match p.timedWait.filter fun wait => wait.key = key with
  | some wait => (some wait.deadline, p)
  | none =>
    if now + timeout ≤ u64Max then
      (some (now + timeout), { p with timedWait := some ⟨key, now + timeout, false⟩ })
    else (none, p)

def clearTimedWait (p : Process) (key : BitVec 64) : Process :=
  if p.timedWait.any fun wait => wait.key = key then { p with timedWait := none } else p

def takeTimedWaitWake (p : Process) (key : BitVec 64) : Bool × Process :=
  if p.timedWait.any fun wait => wait.key = key && wait.woken then
    (true, { p with timedWait := none })
  else (false, p)

end Process

variable (s : State)

namespace State

/-- `current_address_space_key`: the physical address of the root table. -/
def addressSpaceKey (p : Process) : ℕ := (s.spaces p.addressSpace).p4Phys

def futexWaitKey (uaddr owner : ℕ) : BitVec 64 := timedWaitKey nrFutex uaddr owner 0

/-- The second argument of the key: nothing tells the waiters of a shared futex apart. -/
def futexOwner (p : Process) (priv : Bool) : ℕ :=
  if priv then s.addressSpaceKey p else 0

def u32OfBytes (bytes : List UInt8) : ℕ :=
  bytes.foldr (fun b n => b.toNat + 256 * n) 0

def ioPollInterval : ℕ := 25

/-- `block_for_io` before it yields. -/
def blockForIo (deadline : Option ℕ) (now : ℕ) : State :=
  s.blockCurrent (.waitIoUntil (deadline.getD (min (now + ioPollInterval) u64Max)))

/-- One pass through the loop of `linux_futex_wait`. `timeout` is the time the pointer gives:
none for a null pointer, an error for one that cannot be read. -/
def linuxFutexWait (uaddr expected : ℕ) (timeout : Option (Except Errno ℕ))
    (priv : Bool) (now : ℕ) : Attempt × State :=
  match s.currentProcess with
  | none => (.done (.error .efault), s)
  | some p =>
    let key := futexWaitKey uaddr (s.futexOwner p priv)
    match p.takeTimedWaitWake key with
    | (true, p) => (.done (.ok 0), s.put p)
    | (false, _) =>
      match s.readUser uaddr 4 with
      | (none, s) => (.done (.error .efault), s.put (p.clearTimedWait key))
      | (some bytes, s) =>
        if u32OfBytes bytes ≠ expected then
          (.done (.error .eagain), s.put (p.clearTimedWait key))
        else match timeout with
          | some (.error e) => (.done (.error e), s.put (p.clearTimedWait key))
          | none =>
            match p.timedWaitDeadline key (u64Max / 4) now with
            | (none, _) => (.done (.error .einval), s)
            | (some _, p) => (.blocked, (s.put p).blockForIo none now)
          | some (.ok timeout) =>
            match p.timedWaitDeadline key timeout now with
            | (none, _) => (.done (.error .einval), s)
            | (some deadline, p) =>
              if deadline ≤ now then (.done (.error .etimedout), s.put (p.clearTimedWait key))
              else (.blocked, (s.put p).blockForIo (some deadline) now)

def linuxFutexWake (uaddr : ℕ) (val : ℤ) (priv : Bool) : Except Errno ℕ × State :=
  if val < 0 then (.error .einval, s)
  else match s.readUser uaddr 4 with
    | (none, s) => (.error .efault, s)
    | (some _, s) =>
      let owner := s.currentProcess.elim 0 fun p => s.futexOwner p priv
      let (s, woken) := s.wakeTimedWaiters (futexWaitKey uaddr owner) val.toNat
      (.ok woken, s)

def futexCmdMask : ℕ := 0x7f

def futexPrivateFlag : ℕ := 0x80

/-- `linux_futex`, with `op` as an unsigned word. -/
def linuxFutex (uaddr op : ℕ) (val : ℤ) (timeout : Option (Except Errno ℕ))
    (now : ℕ) : Attempt × State :=
  let priv : Bool := op &&& futexPrivateFlag ≠ 0
  if uaddr % 4 ≠ 0 then (.done (.error .einval), s)
  else if op &&& (futexCmdMask ||| futexPrivateFlag) ≠ op then (.done (.error .einval), s)
  else match op &&& futexCmdMask with
    | 0 => s.linuxFutexWait uaddr (val % 2 ^ 32).toNat timeout priv now
    | 1 =>
      let (r, s) := s.linuxFutexWake uaddr val priv
      (.done r, s)
    | _ => (.done (.error .enosys), s)

/-- How `poll`, `select`, `nanosleep`, `accept` and `recvfrom` wait with a timeout: the slot is
taken under a key of their own. -/
def timedBlock (key : BitVec 64) (timeout now : ℕ) : Attempt × State :=
  match s.currentProcess with
  | none => (.done (.error .esrch), s)
  | some p =>
    match p.timedWaitDeadline key timeout now with
    | (none, _) => (.done (.error .einval), s)
    | (some deadline, p) =>
      if deadline ≤ now then (.done (.ok 0), s.put (p.clearTimedWait key))
      else (.blocked, (s.put p).blockForIo (some deadline) now)

/-- The end of such a wait. -/
def endTimedWait (key : BitVec 64) : State :=
  s.modifyCurrent fun p => p.clearTimedWait key

end State
end Ristux.Kernel
