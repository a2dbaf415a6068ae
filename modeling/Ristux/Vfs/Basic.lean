import Mathlib.Data.List.Lemmas
import Ristux.Lib.Outcome
import Ristux.Lib.Slots
import Ristux.Ext2.Ops
import Ristux.Kernel.Pipe

-- Files live in two places: in the in-memory table of nodes, and on the ext2 file system that is
-- mounted at the root.

namespace Ristux.Vfs
open Lib Ext2 List Proc Res
open Kernel (Credentials PipeState)

inductive VfsError where
  | notFound
  | notFile
  | badFd
  | utf8
  | alreadyExists
  | permissionDenied
  | wouldBlock
  | tooManyOpenFiles
  | tooManyLinks
  | noSpace
  | outOfMemory
  | brokenPipe
  deriving DecidableEq, Repr

def mapExt2Error : Ext2Error → VfsError
  | .notFound => .notFound
  | .notDirectory | .notFile => .notFile
  | .alreadyExists => .alreadyExists
  | .tooManyLinks => .tooManyLinks
  | .noSpace | .directoryFull => .noSpace
  | .outOfMemory => .outOfMemory
  | .invalidSuperblock | .ioError | .unsupported => .badFd

inductive Access where
  | read
  | write
  | execute
  deriving DecidableEq, Repr

def Access.bit : Access → ℕ
  | .read => 4
  | .write => 2
  | .execute => 1

/-- `FileMode::bit`. -/
def modeBit (mode : ℕ) (access : Access) (shift : ℕ) : Bool :=
  mode &&& (access.bit <<< shift) ≠ 0

def inGroup (creds : Credentials) (group : ℕ) : Bool :=
  creds.egid = group ||
    ((ofFn creds.groups).take creds.groupCount).any (· = group)

structure FileMetadata where
  owner : ℕ
  group : ℕ
  mode : ℕ
  deriving DecidableEq, Repr

def FileMetadata.canAccess (m : FileMetadata) (creds : Credentials) (access : Access) : Bool :=
  if creds.isSuperuser then true
  else if creds.euid = m.owner then modeBit m.mode access 6
  else if inGroup creds m.group then modeBit m.mode access 3
  else modeBit m.mode access 0

/-- The `metadata` field of what the ext2 driver reports about a file. -/
def fileMetadata (m : Ext2Metadata) : FileMetadata := ⟨m.owner, m.group, m.mode⟩

/-- The bytes of an in-memory file. No allocation is larger than `isize::MAX`. -/
structure FileData where
  bytes : List UInt8
  small : bytes.length < 2 ^ 63

variable (data : FileData)

namespace FileData

def empty : FileData := ⟨[], by decide⟩

/-- `try_vec_from_bytes`. -/
def fromBytes (bytes : List UInt8) : Res VfsError FileData :=
  if h : bytes.length < 2 ^ 63 then .ok ⟨bytes, h⟩ else err .outOfMemory

end FileData

namespace FileData

end FileData

structure BlockDevice where
  startSector : ℕ
  sectorCount : ℕ
  deriving DecidableEq, Repr

inductive DeviceKind where
  | null
  | zero
  | random
  | urandom
  | console
  | serial
  | block (device : BlockDevice)
  | keyboard
  | tty
  | ptmx
  | ptySlave (pty : ℕ)
  | framebuffer
  deriving DecidableEq, Repr

inductive NodeKind where
  | file
  | directory
  | symlink
  | device (kind : DeviceKind)
  deriving DecidableEq, Repr

structure FileTimestamps where
  createdAt : ℕ
  modifiedAt : ℕ
  deriving DecidableEq, Repr

/-- A removed node stays in the table, with an empty path. -/
structure Node where
  path : Str
  kind : NodeKind
  metadata : FileMetadata
  timestamps : FileTimestamps
  data : FileData
  linkTarget : Option ℕ

structure OpenRights where
  read : Bool
  write : Bool
  deriving DecidableEq, Repr

def OpenRights.readWrite : OpenRights := ⟨true, true⟩

inductive OpenHandle where
  | node (node offset : ℕ) (rights : OpenRights)
  | pipeRead (pipe : ℕ)
  | pipeWrite (pipe : ℕ)
  | ptyMaster (pty : ℕ) (rights : OpenRights)
  | ptySlave (pty : ℕ) (rights : OpenRights)
  | ext2File (path : Str) (offset : ℕ) (rights : OpenRights)
  | ext2Dir (path : Str) (offset : ℕ)
  deriving DecidableEq, Repr

/-- A pseudo terminal: who holds its two ends. -/
structure PtyState where
  masters : ℕ
  slaves : ℕ
  locked : Bool
  deriving DecidableEq, Repr

structure MountPoint where
  mountpoint : Str
  ext2 : Option Ext2Fs

structure State where
  nodes : List Node
  openFiles : List (Option OpenHandle)
  pipes : List PipeState
  ptys : List PtyState
  mounts : List MountPoint
  world : World

/-- What the rest of the kernel answers during a call. -/
structure Env where
  currentPid : Option ℕ
  procText : Str → FileData
  scancodes : List UInt8
  ttyInput : List UInt8
  random : ℕ → UInt8
  framebufferTaken : List UInt8 → ℕ
  ptyInput : ℕ → Except VfsError (List UInt8)
  ptyTaken : List UInt8 → Except VfsError ℕ

abbrev V := Proc State VfsError

variable (s : State)

namespace State

def rootExt2 : Option Ext2Fs :=
  (s.mounts.find? fun mount => mount.mountpoint = ['/']).bind (·.ext2)

/-- `nodes.iter().position(|node| node.path == path)`. -/
def position (path : Str) : Option ℕ := s.nodes.findIdx? fun node => node.path = path

/-- `nodes.iter().find(|node| node.path == path)`. -/
def findNode (path : Str) : Option Node := s.nodes.find? fun node => node.path = path

def handle (fd : ℕ) : Option OpenHandle := (s.openFiles[fd]?).join

def setWorld (w : World) : State := { s with world := w }

def setHandle (fd : ℕ) (h : OpenHandle) : State :=
  { s with openFiles := s.openFiles.set fd (some h) }

def modifyNode (i : ℕ) (f : Node → Node) : State :=
  { s with nodes := s.nodes.modify i f }

end State

theorem handle_setHandle {s : State} {fd k : ℕ} {h : OpenHandle} (h' : OpenHandle)
    (hfd : s.handle fd = some h) :
    (s.setHandle fd h').handle k = if k = fd then some h' else s.handle k :=
  Slots.join_set (Slots.lt_of_join hfd)

/-- `if !c { return Err(e) }`. -/
def require (c : Bool) (e : VfsError) : V Unit := if c then pure () else fail e

variable {α : Type} (f : Ext2Error → VfsError)

/-- Run an operation of the ext2 driver. -/
def onExt2 (x : M α) : V α :=
  zoom State.world (fun w s => s.setWorld w) f x

/-- Ask the ext2 driver something; the disk stays as it is. -/
def askExt2 (x : Device → R α) : V α :=
  query fun s => (x s.world.dev).mapErr f

/-- The outcome of a question to the ext2 driver, errors included. -/
def tryExt2 (x : Device → R α) : V (Except Ext2Error α) :=
  query fun s =>
    match x s.world.dev with
    | .ok a => .ok (.ok a)
    | .error (.err e) => .ok (.error e)
    | .error .panic => .error .panic

def timestamp : V ℕ := onExt2 mapExt2Error filesystemTimestamp

/-- `self.nodes[i]`. -/
def nodeAt (i : ℕ) : V Node := query fun s =>
  match s.nodes[i]? with
  | some node => .ok node
  | none => .error .panic

def canonicalFrom (nodes : List Node) : ℕ → ℕ → ℕ
  | 0, current => current
  | rounds + 1, current =>
    match (nodes[current]?).bind (·.linkTarget) with
    | none => current
    | some next => canonicalFrom nodes rounds next

/-- The node that holds the data of a node: hard links are followed at most eight times. -/
def canonicalNodeIndex (nodes : List Node) (i : ℕ) : ℕ := canonicalFrom nodes 8 i

def canonical (i : ℕ) : V ℕ := query fun s => .ok (canonicalNodeIndex s.nodes i)

def pushNode (node : Node) : V ℕ := fun s =>
  (.ok s.nodes.length, { s with nodes := s.nodes ++ [node] })

/-- The handle goes into the first free slot. -/
def pushOpenHandle (h : OpenHandle) : V ℕ := fun s =>
  match s.openFiles.findIdx? Option.isNone with
  | some fd => (.ok fd, s.setHandle fd h)
  | none => (.ok s.openFiles.length, { s with openFiles := s.openFiles ++ [some h] })

end Ristux.Vfs
