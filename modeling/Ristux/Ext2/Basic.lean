import Ristux.Lib.Proc
import Ristux.Lib.Bitmap

-- A device is an array of 512-byte sectors; a request past its end fails, every other request
-- succeeds. Where the code's fixed-width arithmetic could overflow there is an explicit check.

namespace Ristux.Ext2
open Lib Proc Res List

inductive Ext2Error where
  | invalidSuperblock
  | notFound
  | notDirectory
  | notFile
  | alreadyExists
  | tooManyLinks
  | noSpace
  | directoryFull
  | outOfMemory
  | ioError
  | unsupported
  deriving DecidableEq, Repr

def ext2Magic : ℕ := 0xEF53
def ext2RootIno : ℕ := 2
def ext2DirectBlocks : ℕ := 12
def ext2SIfmt : ℕ := 0o170000
def ext2SIfreg : ℕ := 0o100000
def ext2SIfdir : ℕ := 0o040000
def ext2SIflnk : ℕ := 0o120000
def ext2FirstNormalIno : ℕ := 11
def ext2FtRegFile : ℕ := 1
def ext2FtDir : ℕ := 2
def ext2FtSymlink : ℕ := 7

/-- A string slice: a sequence of Unicode scalar values. -/
abbrev Str := List Char

def asBytes (s : Str) : List UInt8 := s.flatMap String.utf8EncodeChar

/-- `core::str::from_utf8`. -/
def fromUtf8 (bytes : List UInt8) : Option Str :=
  (ByteArray.utf8Decode? ⟨⟨bytes⟩⟩).map Array.toList

structure Device where
  sectorCount : ℕ
  sector : ℕ → Buf

/-- What the driver shares with the rest of the machine. `wall` lists the readings of
the wall clock that are still to come. -/
structure World where
  dev : Device
  wall : ℕ → ℕ
  fileTimestampCounter : ℕ

abbrev R := Res Ext2Error
abbrev M := Proc World Ext2Error

/-- Run a function of the device that does not write. -/
def reading {α : Type} (f : Device → R α) : M α := query fun w => f w.dev

def u32Max : ℕ := 2 ^ 32 - 1
def u64Max : ℕ := 2 ^ 64 - 1

variable (a b : ℕ)

def checkedAdd : R ℕ := if a + b ≤ u64Max then .ok (a + b) else err .unsupported

def checkedMul : R ℕ := if a * b ≤ u64Max then .ok (a * b) else err .unsupported

def divCeil : ℕ := (a + b - 1) / b

def readSectors (dev : Device) (sector : ℕ) : R Buf :=
  if sector < dev.sectorCount then .ok (dev.sector sector) else err .ioError

def writeSectors (sector : ℕ) (input : Buf) : M Unit := fun w =>
  if sector < w.dev.sectorCount then
    (.ok (), { w with dev := { w.dev with sector := Function.update w.dev.sector sector input } })
  else (err .ioError, w)

/-- `read_block_sized` into a buffer of `outputLen` bytes. -/
def readBlockAt (startSector block blockSize outputLen : ℕ) (dev : Device) : R Buf :=
  if outputLen < blockSize ∨ blockSize ≠ 1024 then err .ioError
  else do
    let sector := startSector + block * (blockSize / 512)
    check (sector + 1 ≤ u64Max)
    let lo ← readSectors dev sector
    let hi ← readSectors dev (sector + 1)
    .ok fun i => if i < 512 then lo i else hi (i - 512)

def writeBlockAt (startSector block blockSize inputLen : ℕ) (input : Buf) : M Unit :=
  if inputLen < blockSize ∨ blockSize ≠ 1024 then fail .ioError
  else do
    let sector := startSector + block * (blockSize / 512)
    lift (check (sector + 1 ≤ u64Max))
    writeSectors sector input
    writeSectors (sector + 1) fun i => input (512 + i)

structure BlockGroup where
  blockBitmap : ℕ
  inodeBitmap : ℕ
  inodeTable : ℕ
  deriving DecidableEq, Repr

structure Ext2Fs where
  startSector : ℕ
  blockSize : ℕ
  blocksCount : ℕ
  inodesCount : ℕ
  blocksPerGroup : ℕ
  inodesPerGroup : ℕ
  inodeSize : ℕ
  groups : List BlockGroup
  rootIno : ℕ
  deriving DecidableEq, Repr

variable (len : ℕ)

def leU16 (buf : Buf) (offset : ℕ) : R ℕ := do
  check (offset + 2 ≤ len)
  .ok (buf.u16At offset)

def leU32 (buf : Buf) (offset : ℕ) : R ℕ := do
  check (offset + 4 ≤ len)
  .ok (buf.u32At offset)

/-- The descriptor blocks one after another. -/
def concatBlocks (blockSize : ℕ) (blocks : List Buf) : Buf := fun i =>
  blocks.getD (i / blockSize) Buf.zero (i % blockSize)

def readGroup (descData : Buf) (group : ℕ) : R BlockGroup := do
  let offset := group * 32
  let blockBitmap ← leU32 len descData offset
  let inodeBitmap ← leU32 len descData (offset + 4)
  let inodeTable ← leU32 len descData (offset + 8)
  .ok { blockBitmap, inodeBitmap, inodeTable }

def mountAt (startSector : ℕ) (dev : Device) : R Ext2Fs := do
  let superblock ← readBlockAt startSector 1 1024 1024 dev
  let magic := superblock.u16At 56
  if magic ≠ ext2Magic then err .invalidSuperblock
  else do
    let inodesCount := superblock.u32At 0
    let blocksCount := superblock.u32At 4
    let logBlockSize := superblock.u32At 24
    if logBlockSize > 2 then err .unsupported
    else do
      let blockSize := 1024 <<< logBlockSize
      let blocksPerGroup := superblock.u32At 32
      let inodesPerGroup := superblock.u32At 40
      if blocksPerGroup = 0 ∨ inodesPerGroup = 0 then err .invalidSuperblock
      else do
        let revLevel := superblock.u32At 76
        let inodeSize := if revLevel ≥ 1 then max (superblock.u16At 88) 128 else 128
        let groupCount := divCeil blocksCount blocksPerGroup
        let descTableBlock := if blockSize = 1024 then 2 else 1
        let descBlocks := divCeil (groupCount * 32) blockSize
        let blocks ← (range descBlocks).mapM fun block =>
          readBlockAt startSector (descTableBlock + block) blockSize blockSize dev
        let descData := concatBlocks blockSize blocks
        let groups ← (range groupCount).mapM (readGroup (descBlocks * blockSize) descData)
        .ok { startSector, blockSize, blocksCount, inodesCount, blocksPerGroup, inodesPerGroup,
              inodeSize, groups, rootIno := ext2RootIno }

/-- `Ext2Fs::read_block_sized`. -/
def readBlockSized (fs : Ext2Fs) (block outputLen : ℕ) (dev : Device) : R Buf :=
  readBlockAt fs.startSector block fs.blockSize outputLen dev

/-- `Ext2Fs::write_block_sized`. -/
def writeBlockSized (fs : Ext2Fs) (block inputLen : ℕ) (input : Buf) : M Unit :=
  writeBlockAt fs.startSector block fs.blockSize inputLen input

def filesystemTimestamp : M ℕ := fun w =>
  let now := w.wall 0
  let stamp := if now > w.fileTimestampCounter then now
    else min (w.fileTimestampCounter + 1) u64Max
  (.ok stamp, { w with wall := fun n => w.wall (n + 1), fileTimestampCounter := stamp })

def currentExt2Time : M ℕ := do
  let now ← filesystemTimestamp
  pure (min now u32Max)

end Ristux.Ext2
