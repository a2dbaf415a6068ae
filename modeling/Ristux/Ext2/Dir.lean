import Ristux.Ext2.Data
import Ristux.Ext2.Path

-- A directory block is a chain of records; each record holds its own length, so a walk makes at
-- most one step for every eight bytes. The walks below carry that bound as fuel.

namespace Ristux.Ext2
open Lib Proc Res

structure DirEntry where
  ino : ℕ
  name : Str
  deriving DecidableEq, Repr

def align4 (value : ℕ) : ℕ := (value + 3) / 4 * 4

def dot : Str := ['.']
def dotDot : Str := ['.', '.']

def readDirRecords (data : Buf) (len limit : ℕ) : ℕ → ℕ → R (List DirEntry)
  | 0, _ => .ok []
  | fuel + 1, offset =>
    if offset + 8 ≤ limit then do
      let ino ← leU32 len data offset
      let recLen ← leU16 len data (offset + 4)
      check (offset + 6 < len)
      let nameLen := (data (offset + 6)).toNat
      if recLen < 8 ∨ offset + recLen > limit then .ok []
      else do
        let rest := readDirRecords data len limit fuel (offset + recLen)
        if ino ≠ 0 ∧ nameLen > 0 ∧ nameLen ≤ recLen - 8 then do
          check (offset + 8 + nameLen ≤ len)
          match fromUtf8 (data.slice (offset + 8) nameLen) with
          | some name => do
            let entries ← rest
            .ok ({ ino, name } :: entries)
          | none => rest
        else rest
    else .ok []

variable (fs : Ext2Fs) (inode : Inode) (dev : Device)

def readDirEntries : R (List DirEntry) := do
  let data ← readInodeData fs inode dev
  let limit := min data.length inode.size
  readDirRecords (Buf.ofList data) data.length limit (limit / 8 + 1) 0

def isEmptyDir : R Bool :=
  if !inode.isDir then err .notDirectory
  else do
    let entries ← readDirEntries fs inode dev
    .ok (entries.all fun entry => entry.name = dot ∨ entry.name = dotDot)

/-- The block after `insert_dir_entry` has found a record with enough slack, if there is one. -/
def insertRecord (blockSize : ℕ) (data : Buf) (childIno : ℕ) (name : List UInt8) (fileType : ℕ) :
    ℕ → ℕ → R (Option Buf)
  | 0, _ => .ok none
  | fuel + 1, offset =>
    if offset + 8 ≤ blockSize then do
      let recLen ← leU16 1024 data (offset + 4)
      check (offset + 6 < 1024)
      let nameLen := (data (offset + 6)).toNat
      if recLen < 8 ∨ offset + recLen > blockSize then .ok none
      else do
        let needed := align4 (8 + name.length)
        let actual := align4 (8 + nameLen)
        if recLen ≥ actual + needed then do
          let newOffset := offset + actual
          check (newOffset + 8 + name.length ≤ 1024)
          let data := data.setU16 (offset + 4) actual
          let data := data.setU32 newOffset childIno
          let data := data.setU16 (newOffset + 4) (recLen - actual)
          let data := data.setByte (newOffset + 6) (UInt8.ofNat name.length)
          let data := data.setByte (newOffset + 7) (UInt8.ofNat fileType)
          .ok (some (data.blit (newOffset + 8) name))
        else insertRecord blockSize data childIno name fileType fuel (offset + recLen)
    else .ok none

def insertDirEntry (parent : Inode) (childIno : ℕ) (name : Str) (fileType : ℕ) :
    M Unit :=
  if asBytes name = [] ∨ (asBytes name).length > 255 then fail .unsupported
  else if parent.blocks 0 = 0 then fail .unsupported
  else do
    let data ← reading (readBlockSized fs (parent.blocks 0) 1024)
    match ← lift (insertRecord fs.blockSize data childIno (asBytes name) fileType
        (fs.blockSize / 8 + 1) 0) with
    | some data => writeBlockSized fs (parent.blocks 0) 1024 data
    | none => fail .directoryFull

/-- The block after `remove_dir_entry` has found the name, with the inode it named. -/
def removeRecord (blockSize : ℕ) (data : Buf) (name : List UInt8) :
    ℕ → Option ℕ → ℕ → R (Option (ℕ × Buf))
  | 0, _, _ => .ok none
  | fuel + 1, previous, offset =>
    if offset + 8 ≤ blockSize then do
      let ino ← leU32 1024 data offset
      let recLen ← leU16 1024 data (offset + 4)
      check (offset + 6 < 1024)
      let nameLen := (data (offset + 6)).toNat
      if recLen < 8 ∨ offset + recLen > blockSize then .ok none
      else do
        let rest := removeRecord blockSize data name fuel (some offset) (offset + recLen)
        if ino ≠ 0 ∧ nameLen > 0 ∧ nameLen ≤ recLen - 8 then do
          check (offset + 8 + nameLen ≤ 1024)
          if data.slice (offset + 8) nameLen = name then
            match previous with
            | some previousOffset => do
              let previousLen ← leU16 1024 data (previousOffset + 4)
              .ok (some (ino, data.setU16 (previousOffset + 4) (previousLen + recLen)))
            | none => .ok (some (ino, data.setU32 offset 0))
          else rest
        else rest
    else .ok none

def removeDirEntry (parent : Inode) (name : Str) : M ℕ :=
  if name = [] ∨ name = dot ∨ name = dotDot then fail .unsupported
  else if parent.blocks 0 = 0 then fail .unsupported
  else do
    let data ← reading (readBlockSized fs (parent.blocks 0) 1024)
    match ← lift (removeRecord fs.blockSize data (asBytes name) (fs.blockSize / 8 + 1)
        none 0) with
    | some (ino, data) => do
      writeBlockSized fs (parent.blocks 0) 1024 data
      pure ino
    | none => fail .notFound

def writeDirRecord (buf : Buf) (offset ino recLen : ℕ) (name : Str) (fileType : ℕ) : Buf :=
  let buf := buf.setU32 offset ino
  let buf := buf.setU16 (offset + 4) recLen
  let buf := buf.setByte (offset + 6) (UInt8.ofNat (asBytes name).length)
  let buf := buf.setByte (offset + 7) (UInt8.ofNat fileType)
  buf.blit (offset + 8) (asBytes name)

def writeDirBlock (block selfIno parentIno : ℕ) : M Unit :=
  let data := writeDirRecord Buf.zero 0 selfIno 12 dot ext2FtDir
  let data := writeDirRecord data 12 parentIno (fs.blockSize - 12) dotDot ext2FtDir
  writeBlockSized fs block 1024 data

def readSymlinkString : R Str := do
  let bytes ← readInodeData fs inode dev
  okOr (fromUtf8 bytes) .unsupported

/-- The component loop of `lookup_path_inner`: `restart` is the recursive call on the path
that a symbolic link leads to. -/
def walkPath (fs : Ext2Fs) (dev : Device) (followFinalSymlink : Bool)
    (restart : Str → R (ℕ × Inode)) :
    List Str → List Str → ℕ → Inode → R (ℕ × Inode)
  | _, [], ino, inode => .ok (ino, inode)
  | walked, component :: rest, _, inode =>
    if !inode.isDir then err .notDirectory
    else do
      let entries ← readDirEntries fs inode dev
      let entry ← okOr (entries.find? fun entry => entry.name = component) .notFound
      let ino := entry.ino
      let inode ← readInode fs ino dev
      if inode.isSymlink ∧ (followFinalSymlink ∨ rest ≠ []) then do
        let target ← readSymlinkString fs inode dev
        let nextPath ← normalizeExt2Path (redirect walked target rest)
        restart nextPath
      else walkPath fs dev followFinalSymlink restart (walked ++ [component]) rest ino inode

/-- `lookup_path_inner`; the first argument is the number of restarts still allowed. -/
def lookupPathInner (fs : Ext2Fs) (dev : Device) (followFinalSymlink : Bool) :
    ℕ → Str → R (ℕ × Inode)
  | 0, _ => err .notFound
  | depth + 1, path => do
    let normalized ← normalizeExt2Path path
    let ino := fs.rootIno
    let inode ← readInode fs ino dev
    let trimmed := trimSlash normalized
    if trimmed = [] then .ok (ino, inode)
    else
      let components := (splitSlash trimmed).filter (· ≠ [])
      walkPath fs dev followFinalSymlink (lookupPathInner fs dev followFinalSymlink depth)
        [] components ino inode

def lookupPath (path : Str) (dev : Device) : R (ℕ × Inode) :=
  lookupPathInner fs dev true 8 path

def lookupPathNoFollow (path : Str) (dev : Device) : R (ℕ × Inode) :=
  lookupPathInner fs dev false 8 path

end Ristux.Ext2
