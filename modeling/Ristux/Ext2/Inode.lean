import Ristux.Lib.Chunks
import Ristux.Ext2.Basic

namespace Ristux.Ext2
open Lib Proc Res List

instance neZeroBlocks : NeZero 15 := ⟨by decide⟩

@[ext]
structure Inode where
  mode : ℕ
  uid : ℕ
  gid : ℕ
  size : ℕ
  atime : ℕ
  ctime : ℕ
  mtime : ℕ
  links : ℕ
  blocks : Fin 15 → ℕ

variable (inode : Inode) (uid gid : UInt32)

namespace Inode

def isFile : Bool := inode.mode &&& ext2SIfmt = ext2SIfreg

def isDir : Bool := inode.mode &&& ext2SIfmt = ext2SIfdir

def isSymlink : Bool := inode.mode &&& ext2SIfmt = ext2SIflnk

/-- `inode.blocks[..EXT2_DIRECT_BLOCKS]`. -/
def direct : List ℕ :=
  ofFn fun i : Fin 12 => inode.blocks ⟨i, by omega⟩

def emptyFile (mode : UInt16) : M Inode := do
  let now ← currentExt2Time
  pure { mode := ext2SIfreg ||| (mode.toNat &&& 0o7777), uid := uid.toNat, gid := gid.toNat,
         size := 0, atime := now, ctime := now, mtime := now, links := 1, blocks := fun _ => 0 }

def emptyDir (mode : UInt16) (block : ℕ) : M Inode := do
  let now ← currentExt2Time
  pure { mode := ext2SIfdir ||| (mode.toNat &&& 0o7777), uid := uid.toNat, gid := gid.toNat,
         size := 1024, atime := now, ctime := now, mtime := now, links := 2,
         blocks := fun i => if i = 0 then block else 0 }

def emptySymlink : M Inode := do
  let now ← currentExt2Time
  pure { mode := ext2SIflnk ||| 0o777, uid := uid.toNat, gid := gid.toNat,
         size := 0, atime := now, ctime := now, mtime := now, links := 1, blocks := fun _ => 0 }

end Inode

def incrementLinks : M Inode :=
  if inode.links + 1 > 65535 then fail .tooManyLinks
  else do
    let now ← currentExt2Time
    pure { inode with links := inode.links + 1, ctime := now }

/-- The inode record that starts at byte 0 of `raw`. -/
def decodeInode (raw : Buf) : Inode where
  mode := raw.u16At 0
  uid := raw.u16At 2 ||| raw.u16At 120 <<< 16
  gid := raw.u16At 24 ||| raw.u16At 122 <<< 16
  size := raw.u32At 4 |||
    (if raw.u16At 0 &&& ext2SIfmt = ext2SIfreg then raw.u32At 108 else 0) <<< 32
  atime := raw.u32At 8
  ctime := raw.u32At 12
  mtime := raw.u32At 16
  links := raw.u16At 26
  blocks := fun i => raw.u32At (40 + i * 4)

variable (fs : Ext2Fs) (ino : ℕ)

/-- The group, table block and byte offset of an inode. -/
def inodeLocation : R (ℕ × ℕ) :=
  if ino = 0 ∨ ino > fs.inodesCount then err .notFound
  else do
    let index := ino - 1
    let group ← okOr fs.groups[index / fs.inodesPerGroup]? .notFound
    let byteOffset := index % fs.inodesPerGroup * fs.inodeSize
    .ok (group.inodeTable + byteOffset / fs.blockSize, byteOffset % fs.blockSize)

def readInode (dev : Device) : R Inode := do
  let (block, offset) ← inodeLocation fs ino
  let data ← readBlockSized fs block fs.blockSize dev
  if offset + 128 > fs.blockSize then err .ioError
  else .ok (decodeInode fun i => data (offset + i))

variable (block : ℕ)

def readIndirectEntries (dev : Device) : R (List ℕ) := do
  let indirect ← readBlockSized fs block fs.blockSize dev
  .ok ((range (fs.blockSize / 4)).map fun i => indirect.u32At (4 * i))

def readIndirectBlocks (dev : Device) : R (List ℕ) := do
  let entries ← readIndirectEntries fs block dev
  .ok (entries.filter (· ≠ 0))

/-- The blocks below `block` in a pointer tree of the given height, as far as they can be
read, `block` itself included. -/
def countTree (fs : Ext2Fs) (dev : Device) : ℕ → ℕ → ℕ
  | 0, _ => 1
  | level + 1, block =>
    match readIndirectBlocks fs block dev with
    | .ok blocks => 1 + (blocks.map (countTree fs dev level)).sum
    | .error _ => 1

def inodeSectorCount (inode : Inode) (dev : Device) : ℕ :=
  let blocks := (inode.direct.filter (· ≠ 0)).length
  let blocks := blocks + if inode.blocks 12 ≠ 0 then countTree fs dev 1 (inode.blocks 12) else 0
  let blocks := blocks + if inode.blocks 13 ≠ 0 then countTree fs dev 2 (inode.blocks 13) else 0
  let blocks := blocks + if inode.blocks 14 ≠ 0 then countTree fs dev 3 (inode.blocks 14) else 0
  blocks * (fs.blockSize / 512)

/-- The 128 bytes `write_inode` puts into the table; a field that does not fit its width is
cut to it. -/
def encodeInode (sectors : ℕ) : Buf :=
  let raw := Buf.zero
  let raw := raw.setU16 0 inode.mode
  let raw := raw.setU16 2 inode.uid
  let raw := raw.setU32 4 inode.size
  let raw := raw.setU32 8 inode.atime
  let raw := raw.setU32 12 inode.ctime
  let raw := raw.setU32 16 inode.mtime
  let raw := raw.setU16 24 inode.gid
  let raw := raw.setU16 26 inode.links
  let raw := raw.setU32 28 sectors
  let raw := raw.storeU32s 10 (ofFn inode.blocks)
  let raw := raw.setU32 108 (inode.size >>> 32)
  let raw := raw.setU16 120 (inode.uid >>> 16)
  raw.setU16 122 (inode.gid >>> 16)

def writeInode (inode : Inode) : M Unit := do
  let (block, offset) ← lift (inodeLocation fs ino)
  let data ← reading (readBlockSized fs block 1024)
  lift (check (offset + 128 ≤ 1024))
  let sectors ← reading fun dev => .ok (inodeSectorCount fs inode dev)
  let raw := encodeInode inode sectors
  writeBlockSized fs block 1024 fun i =>
    if offset ≤ i ∧ i < offset + 128 then raw (i - offset) else data i

def bitmapBit (buf : Buf) (bit : ℕ) : R Bool := do
  check (bit / 8 < 1024)
  .ok (Bitmap.bit buf bit)

def setBitmapBit (buf : Buf) (bit : ℕ) (used : Bool) : R Buf := do
  check (bit / 8 < 1024)
  .ok (Bitmap.setBit buf bit used)

/-- What block and inode allocation have in common: the bitmap of a group, the number a bit
stands for, the number at which the search gives up, and the bits to try in a group. -/
structure BitSpace where
  bitmapOf : BlockGroup → ℕ
  number : ℕ → ℕ → ℕ
  past : ℕ → Bool
  bits : ℕ → List ℕ

def blockSpace : BitSpace where
  bitmapOf group := group.blockBitmap
  number group bit := group * fs.blocksPerGroup + bit
  past block := block ≥ fs.blocksCount
  bits _ := range fs.blocksPerGroup

def inodeSpace : BitSpace where
  bitmapOf group := group.inodeBitmap
  number group bit := group * fs.inodesPerGroup + bit + 1
  past ino := ino > fs.inodesCount
  bits group :=
    let start := if group = 0 then ext2FirstNormalIno - 1 else 0
    range' start (fs.inodesPerGroup - start)

/-- The first clear bit of a group, or an error once the numbers run past the end. -/
def scanBits (space : BitSpace) (group : ℕ) (bitmap : Buf) : List ℕ → R (Option ℕ)
  | [] => .ok none
  | bit :: bits => do
    check (space.number group bit ≤ u32Max)
    if space.past (space.number group bit) then err .noSpace
    else do
      let used ← bitmapBit bitmap bit
      if !used then .ok (some bit) else scanBits space group bitmap bits

def allocateFrom (fs : Ext2Fs) (space : BitSpace) : ℕ → List BlockGroup → M ℕ
  | _, [] => fail .noSpace
  | index, group :: groups => do
    let bitmap ← reading (readBlockSized fs (space.bitmapOf group) 1024)
    match ← lift (scanBits space index bitmap (space.bits index)) with
    | some bit => do
      let bitmap ← lift (setBitmapBit bitmap bit true)
      writeBlockSized fs (space.bitmapOf group) 1024 bitmap
      pure (space.number index bit)
    | none => allocateFrom fs space (index + 1) groups

def allocateBlock : M ℕ := allocateFrom fs (blockSpace fs) 0 fs.groups

def allocateInode : M ℕ := allocateFrom fs (inodeSpace fs) 0 fs.groups

/-- The clear bits of a group up to the first number past the end. -/
def countBits (space : BitSpace) (group : ℕ) (bitmap : Buf) : ℕ → List ℕ → R ℕ
  | free, [] => .ok free
  | free, bit :: bits => do
    check (space.number group bit ≤ u32Max)
    if space.past (space.number group bit) then .ok free
    else do
      let used ← bitmapBit bitmap bit
      countBits space group bitmap (if used then free else min (free + 1) u32Max) bits

def countFrom (fs : Ext2Fs) (space : BitSpace) (perGroup : ℕ) (dev : Device) :
    ℕ → ℕ → List BlockGroup → R ℕ
  | free, _, [] => .ok free
  | free, index, group :: groups => do
    let bitmap ← readBlockSized fs (space.bitmapOf group) 1024 dev
    let free ← countBits space index bitmap free (range perGroup)
    countFrom fs space perGroup dev free (index + 1) groups

def countFreeBlocks (dev : Device) : R ℕ :=
  countFrom fs (blockSpace fs) fs.blocksPerGroup dev 0 0 fs.groups

/-- Clear bit `index % perGroup` of group `index / perGroup`. -/
def freeBit (bitmapOf : BlockGroup → ℕ) (perGroup index : ℕ) : M Unit := do
  let group ← lift (okOr fs.groups[index / perGroup]? .notFound)
  let bitmap ← reading (readBlockSized fs (bitmapOf group) 1024)
  let bitmap ← lift (setBitmapBit bitmap (index % perGroup) false)
  writeBlockSized fs (bitmapOf group) 1024 bitmap

def freeBlock : M Unit :=
  if block ≥ fs.blocksCount then fail .notFound
  else freeBit fs BlockGroup.blockBitmap fs.blocksPerGroup block

def freeInode : M Unit :=
  if ino = 0 ∨ ino > fs.inodesCount then fail .notFound
  else freeBit fs BlockGroup.inodeBitmap fs.inodesPerGroup (ino - 1)

/-- Free the pointer tree of the given height below `block`, children first. -/
def freeTree (fs : Ext2Fs) : ℕ → ℕ → M Unit
  | 0, block => freeBlock fs block
  | level + 1, block => do
    let blocks ← reading (readIndirectBlocks fs block)
    forEach (freeTree fs level) blocks
    freeBlock fs block

def freeTreeIf (level block : ℕ) : M Unit :=
  if block ≠ 0 then freeTree fs level block else pure ()

def freeInodeBlocks (inode : Inode) : M Unit := do
  forEach (freeBlock fs) (inode.direct.filter (· ≠ 0))
  freeTreeIf fs 1 (inode.blocks 12)
  freeTreeIf fs 2 (inode.blocks 13)
  freeTreeIf fs 3 (inode.blocks 14)

end Ristux.Ext2
