import Ristux.Kernel.Basic

-- The open files of the virtual file system. The only handles with a state of their own here are
-- the two ends of a pipe.

namespace Ristux.Kernel

variable (p : PipeState)

namespace PipeState

def new (capacity : ℕ) : PipeState where
  buffer := []
  capacity := capacity
  readers := 1
  writers := 1

def addReader : PipeState := { p with readers := p.readers + 1 }
def addWriter : PipeState := { p with writers := p.writers + 1 }
def closeReader : PipeState := { p with readers := p.readers - 1 }
def closeWriter : PipeState := { p with writers := p.writers - 1 }

/-- Read into an output of `len` bytes: the bytes that were taken from the buffer. -/
def read (len : ℕ) : Except VfsError (List UInt8 × PipeState) :=
  let taken := p.buffer.take len
  if taken = [] ∧ 0 < p.writers then .error .wouldBlock
  else .ok (taken, { p with buffer := p.buffer.drop len })

/-- Push bytes at the back until the buffer is full: how many went in, and the buffer. -/
def pushBytes (capacity : ℕ) : List UInt8 → List UInt8 → ℕ × List UInt8
  | buffer, [] => (0, buffer)
  | buffer, byte :: input =>
    if buffer.length = capacity then (0, buffer)
    else
      let (written, buffer) := pushBytes capacity (buffer ++ [byte]) input
      (written + 1, buffer)

def write (input : List UInt8) : Except VfsError (ℕ × PipeState) :=
  if input = [] then .ok (0, p)
  else if p.readers = 0 then .error .brokenPipe
  else
    let (written, buffer) := pushBytes p.capacity p.buffer input
    if written = 0 then .error .wouldBlock
    else .ok (written, { p with buffer := buffer })

end PipeState

variable (v : Vfs)

namespace Vfs

def handle (fd : ℕ) : Option OpenHandle := (v.openFiles[fd]?).join

def setPipe (pipe : ℕ) (p : PipeState) : Vfs := { v with pipes := v.pipes.set pipe p }

def retainHandle : OpenHandle → Except VfsError Vfs
  | .pipeRead pipe =>
    match v.pipes[pipe]? with
    | none => .error .badFd
    | some p => .ok (v.setPipe pipe p.addReader)
  | .pipeWrite pipe =>
    match v.pipes[pipe]? with
    | none => .error .badFd
    | some p => .ok (v.setPipe pipe p.addWriter)
  | .other => .ok v

def releaseHandle : OpenHandle → Except VfsError Vfs
  | .pipeRead pipe =>
    match v.pipes[pipe]? with
    | none => .error .badFd
    | some p => .ok (v.setPipe pipe p.closeReader)
  | .pipeWrite pipe =>
    match v.pipes[pipe]? with
    | none => .error .badFd
    | some p => .ok (v.setPipe pipe p.closeWriter)
  | .other => .ok v

/-- `close`. The slot is emptied before the handle is released, also when that fails. -/
def close (v : Vfs) (fd : ℕ) : Except VfsError Unit × Vfs :=
  match v.handle fd with
  | none => (.error .badFd, v)
  | some h =>
    let v := { v with openFiles := v.openFiles.set fd none }
    match v.releaseHandle h with
    | .error e => (.error e, v)
    | .ok v => (.ok (), v)

/-- `let _ = fs::close(fd)` for each of a list of open files. -/
def closeAll (fds : List ℕ) : Vfs := fds.foldl (fun v fd => (v.close fd).2) v

def reserveOpenHandleSlots (count : ℕ) : Except VfsError Unit :=
  let freeSlots := v.openFiles.countP Option.isNone
  if count ≤ freeSlots then .ok ()
  else if v.openFiles.length + (count - freeSlots) ≤ v.fileRoom then .ok ()
  else .error .outOfMemory

/-- The loop of `push_open_handle`: the first free slot, or a new one. -/
def placeHandle (h : OpenHandle) : ℕ × Vfs :=
  match v.openFiles.findIdx? Option.isNone with
  | some fd => (fd, { v with openFiles := v.openFiles.set fd (some h) })
  | none => (v.openFiles.length, { v with openFiles := v.openFiles ++ [some h] })

def pushOpenHandle (h : OpenHandle) : Except VfsError (ℕ × Vfs) :=
  (v.reserveOpenHandleSlots 1).map fun _ => v.placeHandle h

/-- `self.pipes.push(PipeState::new(capacity))`. -/
def addPipe (capacity : ℕ) : Vfs := { v with pipes := v.pipes ++ [PipeState.new capacity] }

def createPipe (capacity : ℕ) : Except VfsError (ℕ × ℕ) × Vfs :=
  match v.reserveOpenHandleSlots 2 with
  | .error e => (.error e, v)
  | .ok _ =>
    if v.pipeRoom ≤ v.pipes.length then (.error .outOfMemory, v)
    else
      let pipe := v.pipes.length
      let v := v.addPipe capacity
      match v.pushOpenHandle (.pipeRead pipe) with
      | .error e => (.error e, v)
      | .ok (readFd, v) =>
        match v.pushOpenHandle (.pipeWrite pipe) with
        | .error e => (.error e, v)
        | .ok (writeFd, v) => (.ok (readFd, writeFd), v)

def duplicateFd (fd : ℕ) : Except VfsError (ℕ × Vfs) :=
  match v.handle fd with
  | none => .error .badFd
  | some h =>
    match v.reserveOpenHandleSlots 1 with
    | .error e => .error e
    | .ok _ =>
      match v.retainHandle h with
      | .error e => .error e
      | .ok v => v.pushOpenHandle h

def isPipe (fd : ℕ) : Bool :=
  match v.handle fd with
  | some (.pipeRead _) | some (.pipeWrite _) => true
  | _ => false

/-- `read` into a buffer of `len` bytes. What a file that is not a pipe answers is given. -/
def read (fd len : ℕ) (other : Except VfsError (List UInt8)) :
    Except VfsError (List UInt8) × Vfs :=
  match v.handle fd with
  | none => (.error .badFd, v)
  | some (.pipeRead pipe) =>
    match v.pipes[pipe]? with
    | none => (.error .badFd, v)
    | some p =>
      match p.read len with
      | .error e => (.error e, v)
      | .ok (bytes, p) => (.ok bytes, v.setPipe pipe p)
  | some (.pipeWrite _) => (.error .badFd, v)
  | some .other => (other.map fun bytes => bytes.take len, v)

def write (fd : ℕ) (input : List UInt8) (other : Except VfsError ℕ) :
    Except VfsError ℕ × Vfs :=
  match v.handle fd with
  | none => (.error .badFd, v)
  | some (.pipeWrite pipe) =>
    match v.pipes[pipe]? with
    | none => (.error .badFd, v)
    | some p =>
      match p.write input with
      | .error e => (.error e, v)
      | .ok (written, p) => (.ok written, v.setPipe pipe p)
  | some (.pipeRead _) => (.error .badFd, v)
  | some .other => (other, v)

end Vfs
end Ristux.Kernel
