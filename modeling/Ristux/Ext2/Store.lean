import Ristux.Ext2.Layout

-- Under a sound layout each primitive of the driver updates one table of the store and leaves the
-- others alone.

namespace Ristux.Ext2
open Lib Function Store

namespace Store

def setBlockUsed (s : Store) (b : ℕ) (used : Bool) : Store :=
  { s with blockUsed := update s.blockUsed b used }

def setInodeUsed (s : Store) (ino : ℕ) (used : Bool) : Store :=
  { s with inodeUsed := update s.inodeUsed ino used }

def setInode (s : Store) (ino : ℕ) (inode : Inode) : Store :=
  { s with inode := update s.inode ino inode }

def setBlock (s : Store) (b : ℕ) (data : Buf) : Store :=
  { s with block := update s.block b data }

section Fields
variable (s : Store) (b ino : ℕ) (used : Bool) (inode : Inode) (data : Buf)

@[simp] theorem setBlockUsed_self : (s.setBlockUsed b used).blockUsed b = used :=
  update_self _ _ _

@[simp] theorem setInodeUsed_blockUsed : (s.setInodeUsed ino used).blockUsed = s.blockUsed := rfl

@[simp] theorem setInodeUsed_self : (s.setInodeUsed ino used).inodeUsed ino = used :=
  update_self _ _ _

@[simp] theorem setInode_self : (s.setInode ino inode).inode ino = inode :=
  update_self _ _ _

theorem setInode_of_ne {ino ino' : ℕ} (h : ino' ≠ ino) :
    (s.setInode ino inode).inode ino' = s.inode ino' := update_of_ne h _ _

@[simp] theorem setBlock_self : (s.setBlock b data).block b = data :=
  update_self _ _ _

theorem setBlock_of_ne {b c : ℕ} (h : c ≠ b) : (s.setBlock b data).block c = s.block c :=
  update_of_ne h _ _

end Fields

end Store

/-- The disk after the bit of inode `ino` has been set to `used`. -/
def markInode (fs : Ext2Fs) (ino : ℕ) (used : Bool) (d : Disk) : Disk :=
  update d (bitmapOfInode fs ino)
    (Bitmap.setBit (d (bitmapOfInode fs ino)) ((ino - 1) % fs.inodesPerGroup) used)

/-- The disk after the record of inode `ino` has been replaced. -/
def putInode (fs : Ext2Fs) (ino : ℕ) (raw : Buf) (d : Disk) : Disk :=
  update d (tableBlock fs ino) fun i =>
    if tableOffset fs ino ≤ i ∧ i < tableOffset fs ino + 128 then raw (i - tableOffset fs ino)
    else d (tableBlock fs ino) i

theorem decodeInode_congr (h : ∀ i < 128, raw i = raw' i) : decodeInode raw = decodeInode raw' := by
  have h16 : ∀ o, o + 2 ≤ 128 → raw.u16At o = raw'.u16At o := fun o ho =>
    Buf.u16At_congr fun i _ _ => h i (by omega)
  have h32 : ∀ o, o + 4 ≤ 128 → raw.u32At o = raw'.u32At o := fun o ho =>
    Buf.u32At_congr fun i _ _ => h i (by omega)
  simp only [decodeInode, h16 0 (by omega), h16 2 (by omega), h16 24 (by omega),
    h16 26 (by omega), h16 120 (by omega), h16 122 (by omega), h32 4 (by omega), h32 8 (by omega),
    h32 12 (by omega), h32 16 (by omega), h32 108 (by omega)]
  congr 1
  funext i
  exact h32 _ (by omega)

section Frame
theorem storeOf_blockUsed (h : ∀ b < fs.blocksCount, bitmapOfBlock fs b ≠ x) :
    (storeOf fs (update d x data)).blockUsed = (storeOf fs d).blockUsed := by
  funext b
  by_cases hb : b < fs.blocksCount
  · simp only [storeOf, blockUsed, update_of_ne (h b hb)]
  · simp [storeOf, hb]

theorem storeOf_inodeUsed (h : ∀ i, ValidIno fs i → bitmapOfInode fs i ≠ x) :
    (storeOf fs (update d x data)).inodeUsed = (storeOf fs d).inodeUsed := by
  funext i
  by_cases hi : ValidIno fs i
  · simp only [storeOf, inodeUsed, update_of_ne (h i hi)]
  · simp [storeOf, hi]

theorem storeOf_inode (h : ∀ i, ValidIno fs i → tableBlock fs i ≠ x) :
    (storeOf fs (update d x data)).inode = (storeOf fs d).inode := by
  funext i
  by_cases hi : ValidIno fs i
  · simp only [storeOf, inodeAt, if_pos hi, update_of_ne (h i hi)]
  · simp [storeOf, hi]

theorem storeOf_block (h : ∀ b, DataBlock fs b → b ≠ x) :
    (storeOf fs (update d x data)).block = (storeOf fs d).block := by
  funext b
  by_cases hb : DataBlock fs b
  · simp only [storeOf, if_pos hb, update_of_ne (h b hb)]
  · simp [storeOf, hb]

/-- A new record replaces one inode. -/
theorem inodeAt_putInode (h : Tables fs) (hi : HasRecord fs ino) (hi' : HasRecord fs ino')
    (raw : Buf) (d : Disk) : inodeAt fs (putInode fs ino raw d) ino' =
    if ino' = ino then decodeInode raw else inodeAt fs d ino' := by
  split_ifs with heq
  · subst heq
    refine decodeInode_congr fun i hlt => ?_
    rw [putInode, update_self, if_pos ⟨by omega, by omega⟩, Nat.add_sub_cancel_left]
  by_cases hb : tableBlock fs ino' = tableBlock fs ino
  · refine decodeInode_congr fun i hlt => ?_
    have := h.disjoint hi' hi heq hb
    rw [hb, putInode, update_self, if_neg (by omega)]
  · rw [inodeAt, putInode, update_of_ne hb, inodeAt]

end Frame

section Update
variable (h : Layout fs) (d : Disk)

theorem DataBlock.ne_groupMeta (hb : DataBlock fs b) (hi : i < fs.groups.length)
    (hx : x ∈ groupMeta fs (groupAt fs i)) : b ≠ x := by
  rintro rfl
  exact hb.2 (groupMeta_subset hi hx)

include h

theorem storeOf_markBlock (hb : b < fs.blocksCount) (used : Bool) :
    storeOf fs (markBlock fs b used d) = (storeOf fs d).setBlockUsed b used := by
  ext1
  · funext c
    simp only [storeOf, setBlockUsed, update_apply, blockUsed_markBlock]
    by_cases hc : c < fs.blocksCount
    · simp only [h.sameBit_iff hc hb, hc, decide_true, Bool.true_and]
    · simp [hc, show c ≠ b by omega]
  · exact storeOf_inodeUsed fun _ hi => (h.bitmapOfBlock_ne_bitmapOfInode hb hi).symm
  · exact storeOf_inode fun _ hi => (h.bitmapOfBlock_ne_tableBlock hb hi).symm
  · exact storeOf_block fun _ hc => hc.ne_groupMeta (h.blockGroup_lt hb) (Layout.bitmapOfBlock_mem b)

theorem storeOf_markInode (hi : ValidIno fs ino) (used : Bool) :
    storeOf fs (markInode fs ino used d) = (storeOf fs d).setInodeUsed ino used := by
  ext1
  · exact storeOf_blockUsed fun _ hc => h.bitmapOfBlock_ne_bitmapOfInode hc hi
  · funext ino'
    by_cases hi' : ValidIno fs ino'
    · simp only [storeOf, setInodeUsed, update_apply, hi', decide_true, Bool.true_and, inodeUsed]
      by_cases hbm : bitmapOfInode fs ino' = bitmapOfInode fs ino
      · rw [hbm, markInode, update_self, Bitmap.bit_setBit]
        by_cases heq : ino' = ino
        · simp [heq]
        · rw [if_neg heq, if_neg fun hm => heq (h.inode_bit_injective hi' hi hbm hm)]
      · rw [markInode, update_of_ne hbm, if_neg fun heq => hbm (by rw [heq])]
    · have : ino' ≠ ino := fun heq => hi' (heq ▸ hi)
      simp [storeOf, setInodeUsed, hi', this]
  · exact storeOf_inode fun _ hi' => (h.bitmapOfInode_ne_tableBlock hi hi').symm
  · exact storeOf_block fun _ hc =>
      hc.ne_groupMeta (h.inodeGroup_lt hi) (Layout.bitmapOfInode_mem ino)

theorem storeOf_putInode (hi : ValidIno fs ino) (raw : Buf) :
    storeOf fs (putInode fs ino raw d) = (storeOf fs d).setInode ino (decodeInode raw) := by
  ext1
  · exact storeOf_blockUsed fun _ hc => h.bitmapOfBlock_ne_tableBlock hc hi
  · exact storeOf_inodeUsed fun _ hi' => h.bitmapOfInode_ne_tableBlock hi' hi
  · funext ino'
    by_cases hi' : ValidIno fs ino'
    · simp only [storeOf, setInode, update_apply, if_pos hi']
      exact inodeAt_putInode h.tables (h.hasRecord hi) (h.hasRecord hi') raw d
    · have : ino' ≠ ino := fun heq => hi' (heq ▸ hi)
      simp [storeOf, setInode, hi', this]
  · exact storeOf_block fun _ hc => hc.ne_groupMeta (h.inodeGroup_lt hi) (h.tableBlock_mem ino)

theorem storeOf_update (hb : DataBlock fs b) (data : Buf) :
    storeOf fs (update d b data) = (storeOf fs d).setBlock b data := by
  have hne : ∀ {i c}, i < fs.groups.length → c ∈ groupMeta fs (groupAt fs i) → c ≠ b :=
    fun hi hc => (hb.ne_groupMeta hi hc).symm
  ext1
  · exact storeOf_blockUsed fun c hc => hne (h.blockGroup_lt hc) (Layout.bitmapOfBlock_mem c)
  · exact storeOf_inodeUsed fun i hi => hne (h.inodeGroup_lt hi) (Layout.bitmapOfInode_mem i)
  · exact storeOf_inode fun i hi => hne (h.inodeGroup_lt hi) (h.tableBlock_mem i)
  · funext c
    by_cases hcb : c = b
    · simp [storeOf, setBlock, hcb, hb]
    · simp [storeOf, setBlock, hcb]

end Update

end Ristux.Ext2
