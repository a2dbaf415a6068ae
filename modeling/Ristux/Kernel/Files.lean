import Ristux.Kernel.Jobs

-- The descriptor table of a process and the system calls that read, write, duplicate and close
-- open files. What a handle other than a pipe answers to a read or a write is an argument.

namespace Ristux.Kernel
open Ristux.Lib Option

namespace Process

def lookupFd (p : Process) (userFd : ℕ) : Option ℕ :=
  (p.fds.find? fun e => e.userFd = userFd).map FdEntry.vfsFd

def statusFlags (p : Process) (userFd : ℕ) : Option ℕ :=
  (p.fds.find? fun e => e.userFd = userFd).map FdEntry.statusFlags

def fdLimit (p : Process) : ℕ := min p.rlimitNofileCur maxFds

def lowestAvailableFd (p : Process) : Option ℕ :=
  (List.range p.fdLimit).find? fun fd => p.fds.all fun e => e.userFd ≠ fd

/-- Point the first entry of `userFd` at another open file. -/
def redirectFd (p : Process) (userFd vfsFd statusFlags fdFlags : ℕ) : Process :=
  { p with fds := p.fds.modify (p.fds.findIdx fun e => e.userFd = userFd) fun e =>
      ⟨e.userFd, vfsFd, statusFlags, fdFlags⟩ }

def setFdWithFlags (p : Process) (userFd vfsFd statusFlags fdFlags : ℕ) : Option Process :=
  if p.fdLimit ≤ userFd then none
  else if p.fds.any fun e => e.userFd = userFd then
    some (p.redirectFd userFd vfsFd statusFlags fdFlags)
  else if maxFds ≤ p.fds.length then none
  else some { p with fds := p.fds ++ [⟨userFd, vfsFd, statusFlags, fdFlags⟩] }

def pushFdWithAllFlags (p : Process) (vfsFd statusFlags fdFlags : ℕ) : Option (ℕ × Process) :=
  match p.lowestAvailableFd with
  | none => none
  | some userFd => (p.setFdWithFlags userFd vfsFd statusFlags fdFlags).map fun p => (userFd, p)

/-- The open file the descriptor had before, if it was in use. -/
def replaceFdWithFlags (p : Process) (userFd vfsFd statusFlags fdFlags : ℕ) :
    Option (Option ℕ × Process) :=
  if p.fdLimit ≤ userFd then none
  else match p.lookupFd userFd with
    | some old => some (some old, p.redirectFd userFd vfsFd statusFlags fdFlags)
    | none => (p.setFdWithFlags userFd vfsFd statusFlags fdFlags).map fun p => (none, p)

def removeFd (p : Process) (userFd : ℕ) : Option (ℕ × Process) :=
  match p.fds.findIdx? fun e => e.userFd = userFd with
  | none => none
  | some i => (p.fds[i]?).map fun e => (e.vfsFd, { p with fds := State.swapRemove p.fds i })

/-! These change the descriptors and nothing else. -/

variable {p q : Process}

theorem setFdWithFlags_eq (h : p.setFdWithFlags userFd vfsFd flags fdFlags = some q) :
    ∃ fds, q = { p with fds := fds } := by
  unfold setFdWithFlags at h
  split at h
  · cases h
  split at h
  · exact ⟨_, (some.inj h).symm⟩
  split at h
  · cases h
  · exact ⟨_, (some.inj h).symm⟩

theorem pushFdWithAllFlags_eq (h : p.pushFdWithAllFlags vfsFd flags fdFlags = some (fd, q)) :
    ∃ fds, q = { p with fds := fds } := by
  unfold pushFdWithAllFlags at h
  split at h
  · cases h
  obtain ⟨r, hr, heq⟩ := map_eq_some_iff.1 h
  obtain rfl := (Prod.mk.inj heq).2
  exact setFdWithFlags_eq hr

theorem replaceFdWithFlags_eq (h : p.replaceFdWithFlags userFd vfsFd flags fdFlags = some (old, q)) :
    ∃ fds, q = { p with fds := fds } := by
  unfold replaceFdWithFlags at h
  split at h
  · cases h
  split at h
  · exact ⟨_, (Prod.mk.inj (some.inj h)).2.symm⟩
  obtain ⟨r, hr, heq⟩ := map_eq_some_iff.1 h
  obtain rfl := (Prod.mk.inj heq).2
  exact setFdWithFlags_eq hr

theorem removeFd_eq (h : p.removeFd userFd = some (fd, q)) : ∃ fds, q = { p with fds := fds } := by
  unfold removeFd at h
  split at h
  · cases h
  · obtain ⟨e, -, heq⟩ := map_eq_some_iff.1 h
    exact ⟨_, (Prod.mk.inj heq).2.symm⟩

end Process

def mapVfsError : VfsError → Errno
  | .badFd => .ebadf
  | .brokenPipe => .epipe
  | .tooManyOpenFiles => .emfile
  | .outOfMemory => .enomem
  | .wouldBlock => .einval

variable (s : State)

namespace State

def fsClose (fd : ℕ) : Except VfsError Unit × State :=
  let (r, v) := s.vfs.close fd
  (r, { s with vfs := v })

def userClose (userFd : ℕ) : Except VfsError Unit × State :=
  match s.currentProcess with
  | none => (.error .badFd, s)
  | some p =>
    match p.removeFd userFd with
    | none => (.error .badFd, s)
    | some (vfsFd, p) =>
      let (r, s) := (s.put p).fsClose vfsFd
      (r, s.wakeIoWaiters)

def userDup (userFd : ℕ) : Except VfsError ℕ × State :=
  match s.currentProcess with
  | none => (.error .badFd, s)
  | some p =>
    match p.statusFlags userFd, p.lookupFd userFd with
    | some flags, some vfsFd =>
      match s.vfs.duplicateFd vfsFd with
      | .error e => (.error e, s)
      | .ok (dup, v) =>
        let s := { s with vfs := v }
        match p.pushFdWithAllFlags dup flags 0 with
        | none => (.error .tooManyOpenFiles, (s.fsClose dup).2)
        | some (fd, p) => (.ok fd, s.put p)
    | _, _ => (.error .badFd, s)

/-- The part `dup2` and `dup3` share: the descriptors differ. The old open file is closed, and
nobody is woken. -/
def replaceFd (p : Process) (userFd targetFd fdFlags : ℕ) :
    Except VfsError ℕ × State :=
  match p.statusFlags userFd, p.lookupFd userFd with
  | some flags, some vfsFd =>
    match s.vfs.duplicateFd vfsFd with
    | .error e => (.error e, s)
    | .ok (dup, v) =>
      let s := { s with vfs := v }
      match p.replaceFdWithFlags targetFd dup flags fdFlags with
      | none => (.error .badFd, (s.fsClose dup).2)
      | some (none, p) => (.ok targetFd, s.put p)
      | some (some old, p) =>
        match (s.put p).fsClose old with
        | (.error e, s) => (.error e, s)
        | (.ok (), s) => (.ok targetFd, s)
  | _, _ => (.error .badFd, s)

def userDup2 (userFd targetFd : ℕ) : Except VfsError ℕ × State :=
  match s.currentProcess with
  | none => (.error .badFd, s)
  | some p =>
    if userFd = targetFd then
      if (p.lookupFd userFd).isSome then (.ok targetFd, s) else (.error .badFd, s)
    else s.replaceFd p userFd targetFd 0

def userDup3 (userFd targetFd fdFlags : ℕ) : Except VfsError ℕ × State :=
  match s.currentProcess with
  | none => (.error .badFd, s)
  | some p =>
    if userFd = targetFd then (.error .badFd, s)
    else s.replaceFd p userFd targetFd fdFlags

def oNonblock : ℕ := 0o4000

def oCloexec : ℕ := 0o2000000

def linuxDup3 (oldfd newfd flags : ℕ) : Except Errno ℕ × State :=
  if flags &&& oCloexec ≠ flags ∨ oldfd = newfd then (.error .einval, s)
  else
    let (r, s) := s.userDup3 oldfd newfd (if flags &&& oCloexec ≠ 0 then fdCloexec else 0)
    (r.mapError mapVfsError, s)

/-- `install_pipe_fds_with_flags`. The descriptor numbers go to user memory at `pipefd`. -/
def installPipeFdsWithFlags (pipefd readVfs writeVfs statusFlags fdFlags : ℕ) :
    Except Errno ℕ × State :=
  match s.currentProcess with
  | none => (.error .efault, { s with vfs := s.vfs.closeAll [readVfs, writeVfs] })
  | some p =>
    match p.pushFdWithAllFlags readVfs statusFlags fdFlags with
    | none => (.error .emfile, { s with vfs := s.vfs.closeAll [readVfs, writeVfs] })
    | some (userRead, p) =>
      match p.pushFdWithAllFlags writeVfs statusFlags fdFlags with
      | none =>
        match p.removeFd userRead with
        | some (fd, p) =>
          (.error .emfile, { s.put p with vfs := s.vfs.closeAll [fd, writeVfs] })
        | none => (.error .emfile, { s.put p with vfs := s.vfs.closeAll [writeVfs] })
      | some (userWrite, p) =>
        let s := s.put p
        match s.writeUser pipefd (u32Bytes userRead ++ u32Bytes userWrite) with
        | (false, s) => (.error .efault, ((s.userClose userRead).2.userClose userWrite).2)
        | (true, s) => (.ok 0, s)

def pipeCapacity : ℕ := 4096

def linuxPipe2 (pipefd flags : ℕ) : Except Errno ℕ × State :=
  if flags &&& (oNonblock ||| oCloexec) ≠ flags then (.error .einval, s)
  else match s.writeUserBuffer pipefd 8 with
    | (false, s) => (.error .efault, s)
    | (true, s) =>
      match s.vfs.createPipe pipeCapacity with
      | (.error _, v) => (.error .enomem, { s with vfs := v })
      | (.ok (readFd, writeFd), v) =>
        { s with vfs := v }.installPipeFdsWithFlags pipefd readFd writeFd (flags &&& oNonblock)
          (if flags &&& oCloexec ≠ 0 then fdCloexec else 0)

/-- `fs::read`. Bytes taken from a pipe make room for writers. -/
def fsRead (fd len : ℕ) (other : Except VfsError (List UInt8)) :
    Except VfsError (List UInt8) × State :=
  let (r, v) := s.vfs.read fd len other
  let t := { s with vfs := v }
  match r with
  | .ok bytes => (.ok bytes, if bytes ≠ [] ∧ s.vfs.isPipe fd then t.wakeIoWaiters else t)
  | .error e => (.error e, t)

/-- `fs::write`. Bytes put into a pipe wake its readers. -/
def fsWrite (fd : ℕ) (input : List UInt8) (other : Except VfsError ℕ) :
    Except VfsError ℕ × State :=
  let (r, v) := s.vfs.write fd input other
  let t := { s with vfs := v }
  match r with
  | .ok written => (.ok written, if 0 < written ∧ s.vfs.isPipe fd then t.wakeIoWaiters else t)
  | .error e => (.error e, t)

/-- `read_user_buffer` of the running process, with the bytes it then finds there. -/
def readUser (addr len : ℕ) : Option (List UInt8) × State :=
  if len = 0 then (some [], s)
  else match s.currentProcess with
    | none => (none, s)
    | some p =>
      let (ok, space, phys) := (s.spaces p.addressSpace).prepareUserRead s.phys addr len
      (if ok then some (space.memory.slice addr len) else none,
        s.setSpace p.addressSpace space phys)

/-- `map_write_vfs_error`: a broken pipe sends SIGPIPE to the writer. -/
def mapWriteVfsError (e : VfsError) : Errno × State :=
  (mapVfsError e, if e = .brokenPipe then
      match s.current with
      | some pid => (s.send pid .pipe).1
      | none => s
    else s)

def nonblocking (p : Process) (fd : ℕ) : Bool :=
  (p.statusFlags fd).any fun flags => flags &&& oNonblock ≠ 0

/-- One pass through the loop of `linux_read`: the bytes go to user memory at `buf`. -/
def linuxRead (fd buf len : ℕ) (other : Except VfsError (List UInt8)) :
    Attempt × State :=
  if len = 0 then
    if (s.currentProcess.bind fun p => p.lookupFd fd).isSome then (.done (.ok 0), s)
    else (.done (.error .ebadf), s)
  else match s.writeUserBuffer buf len with
    | (false, s) => (.done (.error .efault), s)
    | (true, s) =>
      match s.currentProcess with
      | none => (.done (.error .ebadf), s)
      | some p =>
        match p.lookupFd fd with
        | none => (.done (.error .ebadf), s)
        | some vfsFd =>
          match s.fsRead vfsFd len other with
          | (.ok bytes, s) =>
            match s.writeUser buf bytes with
            | (false, s) => (.done (.error .efault), s)
            | (true, s) => (.done (.ok bytes.length), s)
          | (.error .wouldBlock, s) =>
            if nonblocking p fd then (.done (.error .eagain), s)
            else (.blocked, s.blockCurrent .waitIo)
          | (.error e, s) => (.done (.error (mapVfsError e)), s)

/-- The loop of `linux_write` from `total` bytes on. A turn that does not end it writes at
least one byte. -/
def linuxWriteFrom (vfsFd buf len : ℕ) (nonblocking : Bool) (other : Except VfsError ℕ) :
    ℕ → ℕ → State → Attempt × State
  | 0, total, s => (.done (.ok total), s)
  | n + 1, total, s =>
    if usizeMax < buf + total then (.done (.error .efault), s)
    else match s.readUser (buf + total) (len - total) with
      | (none, s) => (.done (.error .efault), s)
      | (some bytes, s) =>
        match s.fsWrite vfsFd bytes other with
        | (.ok written, s) =>
          if total + written = len ∨ written = 0 then (.done (.ok (total + written)), s)
          else linuxWriteFrom vfsFd buf len nonblocking other n (total + written) s
        | (.error .wouldBlock, s) =>
          if 0 < total then (.done (.ok total), s)
          else if nonblocking then (.done (.error .eagain), s)
          else (.blocked, s.blockCurrent .waitIo)
        | (.error e, s) =>
          let (errno, s) := s.mapWriteVfsError e
          (.done (if 0 < total then .ok total else .error errno), s)

/-- `linux_write`. Descriptors 1 and 2 without an open file are the console. -/
def linuxWrite (fd buf len : ℕ) (other : Except VfsError ℕ) : Attempt × State :=
  match s.currentProcess.bind fun p => (p.lookupFd fd).map fun v => (v, nonblocking p fd) with
  | some (vfsFd, nonblocking) => linuxWriteFrom vfsFd buf len nonblocking other (len + 1) 0 s
  | none =>
    match s.readUser buf len with
    | (none, s) => (.done (.error .efault), s)
    | (some _, s) =>
      if fd = 1 ∨ fd = 2 then (.done (.ok len), s) else (.done (.error .ebadf), s)

end State
end Ristux.Kernel
