import Ristux.Ext2.Dir

namespace Ristux.Ext2
open Lib Proc Res

variable (fs : Ext2Fs) (path : Str) (dev : Device)

def readFile : R (List UInt8) := do
  let (_, inode) ← lookupPath fs path dev
  if !inode.isFile then err .notFile else readInodeData fs inode dev

def listDir : R (List Str) := do
  let (_, inode) ← lookupPath fs path dev
  if !inode.isDir then err .notDirectory
  else do
    let entries ← readDirEntries fs inode dev
    .ok ((entries.filter fun entry => entry.name ≠ dot ∧ entry.name ≠ dotDot).map DirEntry.name)

inductive Ext2NodeKind where
  | file
  | directory
  | symlink
  deriving DecidableEq, Repr

/-- `owner`, `group` and `mode` are the fields of the source's nested `FileMetadata`. -/
structure Ext2Metadata where
  kind : Ext2NodeKind
  owner : ℕ
  group : ℕ
  mode : ℕ
  size : ℕ
  links : ℕ
  mtime : ℕ
  deriving DecidableEq, Repr

def metadataInner (followSymlink : Bool) (dev : Device) :
    R Ext2Metadata := do
  let (_, inode) ← if followSymlink then lookupPath fs path dev else lookupPathNoFollow fs path dev
  let kind ←
    if inode.isDir then .ok .directory
    else if inode.isFile then .ok .file
    else if inode.isSymlink then .ok .symlink
    else err .unsupported
  .ok { kind, owner := inode.uid, group := inode.gid, mode := inode.mode &&& 0o7777,
        size := inode.size, links := inode.links, mtime := inode.mtime }

def metadata : R Ext2Metadata :=
  metadataInner fs path true dev

def lstatMetadata : R Ext2Metadata :=
  metadataInner fs path false dev

/-- `lookup(path).is_ok()`. -/
def isOk {α : Type} (r : R α) : R Bool :=
  match r with
  | .ok _ => .ok true
  | .error (.err _) => .ok false
  | .error .panic => .error .panic

def symlink (target linkPath : Str) (uid gid : UInt32) : M Unit := do
  if ← reading fun dev => isOk (lookupPathNoFollow fs linkPath dev) then
    fail .alreadyExists
  else do
    let (parentPath, name) ← lift (splitParentName linkPath)
    let (_, parent) ← reading (lookupPath fs parentPath)
    if !parent.isDir then fail .notDirectory
    else do
      let ino ← allocateInode fs
      let inode ← Inode.emptySymlink uid gid
      match ← attempt (writeInodeData fs inode (asBytes target)) with
      | .error err => do
        ignore (freeInode fs ino)
        fail err
      | .ok inode =>
        match ← attempt (writeInode fs ino inode) with
        | .error err => do
          ignore (freeInodeBlocks fs inode)
          ignore (freeInode fs ino)
          fail err
        | .ok () =>
          match ← attempt (insertDirEntry fs parent ino name ext2FtSymlink) with
          | .error err => do
            ignore (freeInodeBlocks fs inode)
            ignore (freeInode fs ino)
            fail err
          | .ok () => pure ()

def createFile (uid gid : UInt32) (mode : UInt16) : M Unit := do
  if ← reading fun dev => isOk (lookupPath fs path dev) then
    fail .alreadyExists
  else do
    let (parentPath, name) ← lift (splitParentName path)
    let (_, parent) ← reading (lookupPath fs parentPath)
    if !parent.isDir then fail .notDirectory
    else do
      let ino ← allocateInode fs
      let inode ← Inode.emptyFile uid gid mode
      writeInode fs ino inode
      match ← attempt (insertDirEntry fs parent ino name ext2FtRegFile) with
      | .error err => do
        ignore (freeInode fs ino)
        fail err
      | .ok () => pure ()

def createDir (uid gid : UInt32) (mode : UInt16) : M Unit := do
  if ← reading fun dev => isOk (lookupPath fs path dev) then
    fail .alreadyExists
  else do
    let (parentPath, name) ← lift (splitParentName path)
    let (parentIno, parent) ← reading (lookupPath fs parentPath)
    if !parent.isDir then fail .notDirectory
    else do
      let parent ← incrementLinks parent
      let ino ← allocateInode fs
      match ← attempt (allocateBlock fs) with
      | .error err => do
        ignore (freeInode fs ino)
        fail err
      | .ok block =>
        match ← attempt (writeDirBlock fs block ino parentIno) with
        | .error err => do
          ignore (freeBlock fs block)
          ignore (freeInode fs ino)
          fail err
        | .ok () => do
          let inode ← Inode.emptyDir uid gid mode block
          match ← attempt (writeInode fs ino inode) with
          | .error err => do
            ignore (freeBlock fs block)
            ignore (freeInode fs ino)
            fail err
          | .ok () =>
            match ← attempt (insertDirEntry fs parent ino name ext2FtDir) with
            | .error err => do
              ignore (freeInodeBlocks fs inode)
              ignore (freeInode fs ino)
              fail err
            | .ok () => writeInode fs parentIno parent

variable (oldPath newPath : Str)

def link : M Unit := do
  if ← reading fun dev => isOk (lookupPathNoFollow fs newPath dev) then
    fail .alreadyExists
  else do
    let (sourceIno, source) ← reading (lookupPath fs oldPath)
    if !source.isFile then fail .notFile
    else do
      let source ← incrementLinks source
      let (parentPath, name) ← lift (splitParentName newPath)
      let (_, parent) ← reading (lookupPath fs parentPath)
      if !parent.isDir then fail .notDirectory
      else do
        insertDirEntry fs parent sourceIno name ext2FtRegFile
        writeInode fs sourceIno source

def unlink : M Unit := do
  let (parentPath, name) ← lift (splitParentName path)
  let (_, inode) ← reading (lookupPathNoFollow fs path)
  if !inode.isFile && !inode.isSymlink then fail .notFile
  else do
    let (_, parent) ← reading (lookupPath fs parentPath)
    if !parent.isDir then fail .notDirectory
    else do
      let removedIno ← removeDirEntry fs parent name
      if inode.links > 1 then do
        let now ← currentExt2Time
        writeInode fs removedIno { inode with links := inode.links - 1, ctime := now }
      else do
        freeInodeBlocks fs inode
        freeInode fs removedIno

def rmdir : M Unit :=
  if path = ['/'] then fail .unsupported
  else do
    let (parentPath, name) ← lift (splitParentName path)
    let (ino, inode) ← reading (lookupPath fs path)
    if !inode.isDir then fail .notDirectory
    else do
      let empty ← reading (isEmptyDir fs inode)
      if !empty then fail .unsupported
      else do
        let (parentIno, parent) ← reading (lookupPath fs parentPath)
        if !parent.isDir then fail .notDirectory
        else do
          let removedIno ← removeDirEntry fs parent name
          if removedIno ≠ ino then fail .ioError
          else do
            freeInodeBlocks fs inode
            freeInode fs ino
            writeInode fs parentIno { parent with links := max (parent.links - 1) 2 }

/-- The part of `rename` after the target, if there was one, is out of the way. -/
def renameEntry : M Unit := do
  let (oldParentPath, oldName) ← lift (splitParentName oldPath)
  let (newParentPath, newName) ← lift (splitParentName newPath)
  let (oldIno, oldInode) ← reading (lookupPathNoFollow fs oldPath)
  if oldInode.isDir ∧ oldParentPath ≠ newParentPath then fail .unsupported
  else do
    let (_, oldParent) ← reading (lookupPath fs oldParentPath)
    let (_, newParent) ← reading (lookupPath fs newParentPath)
    if !oldParent.isDir || !newParent.isDir then fail .notDirectory
    else do
      let fileType ←
        if oldInode.isDir then pure ext2FtDir
        else if oldInode.isFile then pure ext2FtRegFile
        else if oldInode.isSymlink then pure ext2FtSymlink
        else fail .unsupported
      insertDirEntry fs newParent oldIno newName fileType
      let removedIno ← removeDirEntry fs oldParent oldName
      if removedIno = oldIno then pure () else fail .ioError

def rename : M Unit :=
  if oldPath = newPath then pure ()
  else if oldPath = ['/'] ∨ newPath = ['/'] then fail .unsupported
  else do
    if ← reading fun dev => isOk (lookupPathNoFollow fs newPath dev) then do
      let (oldIno, _) ← reading (lookupPathNoFollow fs oldPath)
      let (newIno, newInode) ← reading (lookupPathNoFollow fs newPath)
      if newIno = oldIno then do
        let (oldParentPath, oldName) ← lift (splitParentName oldPath)
        let (_, oldParent) ← reading (lookupPath fs oldParentPath)
        let _ ← removeDirEntry fs oldParent oldName
        pure ()
      else if !newInode.isFile && !newInode.isSymlink then fail .notFile
      else do
        unlink fs newPath
        renameEntry fs oldPath newPath
    else renameEntry fs oldPath newPath

def writeFile (data : List UInt8) : M Unit := do
  let (ino, inode) ← reading (lookupPath fs path)
  if !inode.isFile then fail .notFile
  else do
    let inode ← writeInodeData fs inode data
    writeInode fs ino inode

def truncateFile : M Unit := writeFile fs path []

end Ristux.Ext2
