import Ristux.Ext2.FreeData
import Ristux.Ext2.WriteData

-- On a damaged disk the writer can be handed block 0, which a pointer tree cannot name, or a
-- block bitmap, which the next allocation overwrites. `HoldsFiles` rules out just that.

namespace Ristux.Ext2
open Lib

instance (fs : Ext2Fs) (b : ℕ) : Decidable (IsBitmap fs b) :=
  inferInstanceAs (Decidable (∃ group ∈ fs.groups, group.blockBitmap = b))

/-- Every block whose bit is clear, or is cleared with the blocks of `inode`, can hold the
data of a file. -/
def HoldsFiles (fs : Ext2Fs) (d : Disk) (inode : Inode) : Prop :=
  ∀ b < fs.blocksCount, blockUsed fs d b = false ∨ (∃ c ∈ refs d inode, SameBit fs b c) →
    b ≠ 0 ∧ ¬IsBitmap fs b

instance (fs : Ext2Fs) (d : Disk) (inode : Inode) : Decidable (HoldsFiles fs d inode) :=
  inferInstanceAs (Decidable (∀ b < fs.blocksCount, _ → _))

theorem writeInodeData_filled
    (hbs : fs.blockSize = 1024) (hfiles : HoldsFiles fs (diskOf fs w.dev) inode)
    (h : writeInodeData fs inode data w = (.ok inode', w')) :
    ∃ bs, Filled fs w' inode' data bs := by
  obtain ⟨_, w₁, hfree, hfill⟩ := Proc.bind_eq_ok.1 h
  have hsafe : ∀ n ∈ refs (diskOf fs w.dev) inode, n < fs.blocksCount → ¬IsBitmap fs n :=
    fun n hn hlt => (hfiles n hlt (.inr ⟨n, hn, rfl, rfl⟩)).2
  have hf := freeInodeBlocks_frees hbs hsafe hfree
  have hp : Protected fs (diskOf fs w₁.dev) := by
    intro b hb hclear
    refine hfiles b hb ?_
    rw [hf.used, Bool.and_eq_false_iff] at hclear
    refine hclear.imp_right fun hany => ?_
    simpa using hany
  obtain ⟨N, -, hQ⟩ := fillInode_allocs hbs inode data w₁ hp
  rw [hfill] at hQ
  obtain ⟨bs, -, hfilled, -⟩ := hQ inode' rfl
  exact ⟨bs, hfilled⟩

/-- Both readers return what `writeInodeData` was given. -/
theorem writeInodeData_readBack {fs : Ext2Fs} {w w' : World} {inode inode' : Inode}
    {data : List UInt8} (hbs : fs.blockSize = 1024) (hfiles : HoldsFiles fs (diskOf fs w.dev) inode)
    (h : writeInodeData fs inode data w = (.ok inode', w')) :
    readInodeData fs inode' w'.dev = .ok data ∧
      ∀ offset output, readInodeRange fs inode' offset output w'.dev =
        .ok (min (offset + output.length) data.length - min offset data.length,
          (data.take (min (offset + output.length) data.length)).drop (min offset data.length) ++
            output.drop (min (offset + output.length) data.length - min offset data.length)) := by
  obtain ⟨bs, hfilled⟩ := writeInodeData_filled hbs hfiles h
  refine ⟨?_, fun offset output => ?_⟩
  · rw [readInodeData_eq hbs fun b hb => hfilled.onDevice hb, hfilled.dataOf_eq]
  have hlen : min (offset + output.length) data.length - min offset data.length =
      min output.length (data.length - offset) := by omega
  rw [hfilled.readInodeRange_eq hbs, hlen]
  congr 3
  apply List.ext_getElem
  · simp
    omega
  intro k h₁ h₂
  have hk : offset + k < data.length := by
    simp at h₁
    omega
  simp [show min offset data.length = offset by omega]

def smallFs : Ext2Fs where
  startSector := 0
  blockSize := 1024
  blocksCount := 8
  inodesCount := 16
  blocksPerGroup := 8
  inodesPerGroup := 16
  inodeSize := 128
  groups := [⟨3, 4, 5⟩]
  rootIno := 2

/-- Eight blocks of which only the block bitmap is not blank. -/
def smallWorld (bitmap : Buf) : World where
  dev := deviceOf 8 fun b => if b = 3 then bitmap else Buf.zero
  wall := fun _ => 0
  fileTimestampCounter := 0

def newFile : Inode where
  mode := 0o100644
  uid := 0
  gid := 0
  size := 0
  atime := 0
  ctime := 0
  mtime := 0
  links := 1
  blocks := fun _ => 0

theorem writeInodeData_readBack_small : ∃ inode' w', writeInodeData smallFs newFile [7, 8, 9]
        (smallWorld (Buf.ofList [0x7f])) = (.ok inode', w') ∧
      readInodeData smallFs inode' w'.dev = .ok [7, 8, 9] ∧
      readInodeRange smallFs inode' 1 [0, 0, 0, 0] w'.dev = .ok (2, [8, 9, 0, 0]) := by
  have h := @writeInodeData_readBack smallFs (smallWorld (Buf.ofList [0x7f])) _ newFile _ [7, 8, 9]
    rfl (by decide) rfl
  exact ⟨_, _, rfl, h.1, h.2 1 [0, 0, 0, 0]⟩

/-- With block 0 marked free the writer takes it, and the readers do not find the data. -/
theorem writeInodeData_block_zero :
    ∃ inode' w', writeInodeData smallFs newFile [7, 8, 9] (smallWorld Buf.zero) =
        (.ok inode', w') ∧ newFile.isFile = true ∧
      readInodeData smallFs inode' w'.dev = Res.err .unsupported := by
  exact ⟨_, _, rfl, rfl, rfl⟩

end Ristux.Ext2
