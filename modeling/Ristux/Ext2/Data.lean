import Ristux.Ext2.Inode

namespace Ristux.Ext2
open Lib Proc Res List

variable (fs : Ext2Fs) (dev : Device)

/-- Append block `block` to `out`, which is to become `total` bytes long. -/
def readDataBlock (total block : ℕ) (out : List UInt8) :
    R (List UInt8) :=
  if out.length ≥ total then .ok out
  else do
    let count := min (total - out.length) fs.blockSize
    let data ← readBlockSized fs block fs.blockSize dev
    .ok (out ++ data.slice 0 count)

/-- Read the blocks of `blocks` in turn with `read` until `out` is complete. -/
def readAll (total : ℕ) (read : ℕ → List UInt8 → R (List UInt8)) :
    List ℕ → List UInt8 → R (List UInt8)
  | [], out => .ok out
  | block :: blocks, out =>
    if out.length = total then .ok out
    else do
      let out ← read block out
      readAll total read blocks out

/-- Read the data blocks of the pointer tree of the given height below `block`. -/
def readTree (fs : Ext2Fs) (dev : Device) (total : ℕ) : ℕ → ℕ → List UInt8 → R (List UInt8)
  | 0, block, out => readDataBlock fs dev total block out
  | level + 1, block, out => do
    let blocks ← readIndirectBlocks fs block dev
    readAll total (readTree fs dev total level) blocks out

def readIndirectPart (total level block : ℕ) (out : List UInt8) :
    R (List UInt8) :=
  if out.length < total ∧ block ≠ 0 then readTree fs dev total level block out else .ok out

/-- `Vec::try_reserve_exact` fails beyond `isize::MAX` bytes. -/
def tryReserve (len : ℕ) : R Unit := if len < 2 ^ 63 then .ok () else err .outOfMemory

variable (inode : Inode)

def readInodeData (dev : Device) : R (List UInt8) := do
  let total := inode.size
  tryReserve total
  if total = 0 then .ok []
  else do
    let out ← readAll total (readDataBlock fs dev total) (inode.direct.filter (· ≠ 0)) []
    let out ← readIndirectPart fs dev total 1 (inode.blocks 12) out
    let out ← readIndirectPart fs dev total 2 (inode.blocks 13) out
    let out ← readIndirectPart fs dev total 3 (inode.blocks 14) out
    if out.length = total then .ok out else err .unsupported

/-- The variables `copy_indirect_range` and its caller share. -/
structure Copy where
  logicalOffset : ℕ
  copied : ℕ
  output : List UInt8

def splice (output : List UInt8) (offset : ℕ) (bytes : List UInt8) : List UInt8 :=
  output.take offset ++ bytes ++ output.drop (offset + bytes.length)

def copyDataBlockRange (block readOffset targetLen : ℕ) (c : Copy) :
    R Copy := do
  let targetEnd ← checkedAdd readOffset targetLen
  let blockStart := c.logicalOffset
  let blockEnd ← checkedAdd blockStart fs.blockSize
  if blockEnd ≤ readOffset ∨ blockStart ≥ targetEnd then .ok c
  else do
    let sourceStart := readOffset - blockStart
    let sourceEnd := if targetEnd < blockEnd then targetEnd - blockStart else fs.blockSize
    if sourceEnd ≤ sourceStart then .ok c
    else do
      let count := sourceEnd - sourceStart
      let absolute ← checkedAdd blockStart sourceStart
      if absolute < readOffset then err .unsupported
      else do
        let outputOffset := absolute - readOffset
        check (outputOffset + count ≤ c.output.length)
        let bytes ←
          if block = 0 then .ok (replicate count 0)
          else do
            let data ← readBlockSized fs block fs.blockSize dev
            .ok (data.slice sourceStart count)
        let copied ← checkedAdd c.copied count
        .ok { c with copied, output := splice c.output outputOffset bytes }

def indirectSpanBytes (fs : Ext2Fs) : ℕ → R ℕ
  | 0 => .ok fs.blockSize
  | level + 1 => do
    let span ← indirectSpanBytes fs level
    checkedMul span (fs.blockSize / 4)

/-- The entry loop of `copy_indirect_range`, with `visit` for what it does at one entry. -/
def copyEntries (targetEnd targetLen : ℕ) (visit : ℕ → Copy → R Copy) : List ℕ → Copy → R Copy
  | [], c => .ok c
  | entry :: entries, c =>
    if c.logicalOffset ≥ targetEnd ∨ c.copied = targetLen then .ok c
    else do
      let c ← visit entry c
      copyEntries targetEnd targetLen visit entries c

def skip (span : ℕ) (c : Copy) : R Copy := do
  let logicalOffset ← checkedAdd c.logicalOffset span
  .ok { c with logicalOffset }

def copyIndirectRange (fs : Ext2Fs) (dev : Device) (readOffset targetLen : ℕ) :
    ℕ → ℕ → Copy → R Copy
  | 0, _, _ => err .unsupported
  | level + 1, block, c => do
    let targetEnd ← checkedAdd readOffset targetLen
    if c.logicalOffset ≥ targetEnd ∨ c.copied = targetLen then .ok c
    else if block = 0 then do
      let span ← indirectSpanBytes fs (level + 1)
      skip span c
    else do
      let entries ← readIndirectEntries fs block dev
      copyEntries targetEnd targetLen (fun entry c =>
        if level = 0 then do
          let c ← copyDataBlockRange fs dev entry readOffset targetLen c
          skip fs.blockSize c
        else if entry = 0 then do
          let span ← indirectSpanBytes fs level
          skip span c
        else copyIndirectRange fs dev readOffset targetLen level entry c) entries c

/-- `read_inode_range` into `output`: the number of bytes copied and the new output. -/
def readInodeRange (offset : ℕ) (output : List UInt8)
    (dev : Device) : R (ℕ × List UInt8) := do
  let total := inode.size
  if output = [] ∨ offset ≥ total then .ok (0, output)
  else do
    let targetLen := min output.length (total - offset)
    let targetEnd ← checkedAdd offset targetLen
    let done (c : Copy) : Bool := c.logicalOffset ≥ targetEnd ∨ c.copied = targetLen
    let c ← copyEntries targetEnd targetLen (fun block c => do
        let c ← copyDataBlockRange fs dev block offset targetLen c
        skip fs.blockSize c)
      inode.direct { logicalOffset := 0, copied := 0, output }
    if done c then .ok (c.copied, c.output)
    else do
      let c ← copyIndirectRange fs dev offset targetLen 1 (inode.blocks 12) c
      if done c then .ok (c.copied, c.output)
      else do
        let c ← copyIndirectRange fs dev offset targetLen 2 (inode.blocks 13) c
        if done c then .ok (c.copied, c.output)
        else do
          let c ← copyIndirectRange fs dev offset targetLen 3 (inode.blocks 14) c
          if c.copied = targetLen then .ok (c.copied, c.output) else err .unsupported

def writeDataBlock (block : ℕ) (data : List UInt8) : M Unit := do
  let count := min data.length fs.blockSize
  lift (check (count ≤ 1024))
  writeBlockSized fs block 1024 (Buf.ofList (data.take count))

/-- Allocate a pointer block over `blocks` and the pointer blocks below it: height 0 is the
single-indirect block, whose entries are the data blocks themselves. -/
def writeIndirect (fs : Ext2Fs) : ℕ → List ℕ → M ℕ
  | 0, blocks => do
    let indirect ← allocateBlock fs
    lift (check (blocks.length * 4 ≤ fs.blockSize))
    writeBlockSized fs indirect fs.blockSize (Buf.storeU32s Buf.zero 0 blocks)
    pure indirect
  | height + 1, blocks => do
    let parent ← allocateBlock fs
    let entries ← mapEach (writeIndirect fs height)
      (chunks ((fs.blockSize / 4) ^ (height + 1)) blocks)
    lift (check (entries.length * 4 ≤ fs.blockSize))
    writeBlockSized fs parent fs.blockSize (Buf.storeU32s Buf.zero 0 entries)
    pure parent

/-- A pointer block is only allocated when there is something for it to point to. -/
def writeIndirectIf (needed : Bool) (height : ℕ) (blocks : List ℕ) : M ℕ :=
  if needed then writeIndirect fs height blocks else pure 0

/-- `write_inode_data` once the old blocks of the inode are freed; the inode that the code
updates in place is the result. -/
def fillInode (data : List UInt8) : M Inode := do
  let blocksNeeded := divCeil data.length fs.blockSize
  let pointersPerBlock := fs.blockSize / 4
  let pointersPerDouble := pointersPerBlock * pointersPerBlock
  let maxBlocks := ext2DirectBlocks + pointersPerBlock + pointersPerDouble +
    pointersPerDouble * pointersPerBlock
  if blocksNeeded > maxBlocks then fail .unsupported
  else do
    let dataBlocks ← mapEach (fun index => do
        let block ← allocateBlock fs
        let start := index * fs.blockSize
        let stop := min (start + fs.blockSize) data.length
        writeDataBlock fs block ((data.take stop).drop start)
        pure block)
      (range blocksNeeded)
    let indirectCount := min (dataBlocks.length - ext2DirectBlocks) pointersPerBlock
    let single ← writeIndirectIf fs (indirectCount > 0) 0
      ((dataBlocks.drop ext2DirectBlocks).take indirectCount)
    let doubleStart := ext2DirectBlocks + indirectCount
    let doubleCount := min (dataBlocks.length - doubleStart) pointersPerDouble
    let double ← writeIndirectIf fs (doubleCount > 0) 1
      ((dataBlocks.drop doubleStart).take doubleCount)
    let tripleStart := doubleStart + doubleCount
    let triple ← writeIndirectIf fs (dataBlocks.length > tripleStart) 2
      (dataBlocks.drop tripleStart)
    let now ← currentExt2Time
    pure { inode with
      blocks := fun i =>
        if i < 12 then dataBlocks.getD i 0
        else if i = 12 then single
        else if i = 13 then double
        else triple
      size := data.length
      mtime := now
      ctime := now }

def writeInodeData (data : List UInt8) : M Inode := do
  freeInodeBlocks fs inode
  fillInode fs inode data

end Ristux.Ext2
