import Mathlib.Data.List.Nodup
import Mathlib.Data.List.Flatten
import Ristux.Ext2.Alloc
import Ristux.Ext2.InodeCodec

-- A sound layout keeps the superblock, the descriptors, the bitmaps and the inode tables apart
-- from each other and inside the file system. Then the device is nothing but the four independent
-- tables of a `Store`.

namespace Ristux.Ext2
open Lib List Nat

def tableBlocks (fs : Ext2Fs) : ℕ := divCeil (fs.inodesPerGroup * fs.inodeSize) 1024

def groupMeta (fs : Ext2Fs) (group : BlockGroup) : List ℕ :=
  group.blockBitmap :: group.inodeBitmap :: range' group.inodeTable (tableBlocks fs)

/-- Boot block, superblock and descriptors, then bitmaps and inode table of each group. -/
def metaBlocks (fs : Ext2Fs) : List ℕ :=
  range (2 + divCeil (fs.groups.length * 32) 1024) ++ fs.groups.flatMap (groupMeta fs)

structure Layout (fs : Ext2Fs) : Prop where
  blockSize : fs.blockSize = 1024
  blocksPerGroup : 0 < fs.blocksPerGroup ∧ fs.blocksPerGroup ≤ 8192
  inodesPerGroup : 0 < fs.inodesPerGroup ∧ fs.inodesPerGroup ≤ 8192
  inodeSize : fs.inodeSize ∣ 1024 ∧ 128 ≤ fs.inodeSize
  blocksCount : fs.blocksCount ≤ fs.groups.length * fs.blocksPerGroup ∧ fs.blocksCount ≤ u32Max
  inodesCount : fs.inodesCount ≤ fs.groups.length * fs.inodesPerGroup ∧ fs.inodesCount < u32Max
  nodup : (metaBlocks fs).Nodup
  inRange : ∀ b ∈ metaBlocks fs, b < fs.blocksCount

/-- An inode number the driver accepts. -/
def ValidIno (fs : Ext2Fs) (ino : ℕ) : Prop := ino ≠ 0 ∧ ino ≤ fs.inodesCount

/-- An inode with a record in the table of a group. -/
def HasRecord (fs : Ext2Fs) (ino : ℕ) : Prop :=
  ValidIno fs ino ∧ (ino - 1) / fs.inodesPerGroup < fs.groups.length

/-- The blocks of the inode table of group `i`. -/
def tableOf (fs : Ext2Fs) (i : ℕ) : List ℕ := range' (groupAt fs i).inodeTable (tableBlocks fs)

/-- The inode tables consist of whole records and do not overlap. -/
structure Tables (fs : Ext2Fs) : Prop where
  inodesPerGroup : 0 < fs.inodesPerGroup
  inodeSize : fs.inodeSize ∣ 1024 ∧ 128 ≤ fs.inodeSize
  apart : ∀ i j x, i < fs.groups.length → j < fs.groups.length → x ∈ tableOf fs i →
    x ∈ tableOf fs j → i = j

/-- An inode number the allocator may hand out. -/
def Ordinary (fs : Ext2Fs) (ino : ℕ) : Prop :=
  ValidIno fs ino ∧ (ino ≤ fs.inodesPerGroup → 10 < ino)

/-- A block that a pointer tree may refer to. -/
def DataBlock (fs : Ext2Fs) (b : ℕ) : Prop := b < fs.blocksCount ∧ b ∉ metaBlocks fs

instance (fs : Ext2Fs) (ino : ℕ) : Decidable (ValidIno fs ino) := inferInstanceAs (Decidable (_ ∧ _))

instance (fs : Ext2Fs) (b : ℕ) : Decidable (DataBlock fs b) := inferInstanceAs (Decidable (_ ∧ _))

variable {b : ℕ}

variable {fs : Ext2Fs} {i x j : ℕ}

theorem DataBlock.ne_zero (hb : DataBlock fs b) : b ≠ 0 := by
  rintro rfl
  exact hb.2 (mem_append_left _ (by simp))

def bitmapOfInode (fs : Ext2Fs) (ino : ℕ) : ℕ :=
  (groupAt fs ((ino - 1) / fs.inodesPerGroup)).inodeBitmap

def inodeUsed (fs : Ext2Fs) (d : Disk) (ino : ℕ) : Bool :=
  Bitmap.bit (d (bitmapOfInode fs ino)) ((ino - 1) % fs.inodesPerGroup)

def tableBlock (fs : Ext2Fs) (ino : ℕ) : ℕ :=
  (groupAt fs ((ino - 1) / fs.inodesPerGroup)).inodeTable +
    (ino - 1) % fs.inodesPerGroup * fs.inodeSize / 1024

def tableOffset (fs : Ext2Fs) (ino : ℕ) : ℕ :=
  (ino - 1) % fs.inodesPerGroup * fs.inodeSize % 1024

def inodeAt (fs : Ext2Fs) (d : Disk) (ino : ℕ) : Inode :=
  decodeInode fun i => d (tableBlock fs ino) (tableOffset fs ino + i)

/-- What the metadata says and what the data blocks hold. -/
@[ext]
structure Store where
  blockUsed : ℕ → Bool
  inodeUsed : ℕ → Bool
  inode : ℕ → Inode
  block : Disk

def storeOf (fs : Ext2Fs) (d : Disk) : Store where
  blockUsed b := decide (b < fs.blocksCount) && blockUsed fs d b
  inodeUsed ino := decide (ValidIno fs ino) && inodeUsed fs d ino
  inode ino := inodeAt fs (if ValidIno fs ino then d else fun _ => Buf.zero) ino
  block b := if DataBlock fs b then d b else Buf.zero

theorem groupAt_mem (hi : i < fs.groups.length) : groupAt fs i ∈ fs.groups := by
  rw [groupAt, getD_eq_getElem _ _ hi]
  exact getElem_mem hi

theorem groupMeta_subset (hi : i < fs.groups.length) (hx : x ∈ groupMeta fs (groupAt fs i)) :
    x ∈ metaBlocks fs :=
  mem_append_right _ (mem_flatMap.2 ⟨_, groupAt_mem hi, hx⟩)

theorem lt_of_le_u32Max (h : n ≤ u32Max) : n < 2 ^ 32 := by
  unfold u32Max at h
  omega

theorem ino_eq (h0 : ino ≠ 0) (h0' : ino' ≠ 0) (hdiv : (ino - 1) / n = (ino' - 1) / n)
    (hmod : (ino - 1) % n = (ino' - 1) % n) : ino = ino' := by
  have : ino - 1 = ino' - 1 := by rw [← div_add_mod (ino - 1) n, hdiv, hmod, div_add_mod]
  omega

namespace Tables
variable (h : Tables fs)
include h

theorem tableBlock_range (ino : ℕ) :
    tableBlock fs ino ∈ tableOf fs ((ino - 1) / fs.inodesPerGroup) := by
  rw [tableOf, mem_range'_1, tableBlock, tableBlocks, divCeil]
  refine ⟨le_add_right _ _, Nat.add_lt_add_left ?_ _⟩
  have hlt := mod_lt (ino - 1) h.inodesPerGroup
  have hmul : ((ino - 1) % fs.inodesPerGroup + 1) * fs.inodeSize ≤
      fs.inodesPerGroup * fs.inodeSize := mul_le_mul_right _ hlt
  rw [succ_mul] at hmul
  have := h.inodeSize.2
  omega

theorem position (hk : 1024 = fs.inodeSize * k) (l : ℕ) :
    l * fs.inodeSize / 1024 = l / k ∧ l * fs.inodeSize % 1024 = l % k * fs.inodeSize := by
  have hpos : 0 < fs.inodeSize := lt_of_lt_of_le (by omega) h.inodeSize.2
  rw [hk, mul_comm fs.inodeSize k]
  exact ⟨Nat.mul_div_mul_right _ _ hpos, mul_mod_mul_right _ _ _⟩

theorem tableOffset_le (ino : ℕ) : tableOffset fs ino + 128 ≤ 1024 := by
  obtain ⟨⟨k, hk⟩, h128⟩ := h.inodeSize
  rw [tableOffset, (h.position hk _).2]
  have hkpos : 0 < k := by
    rcases Nat.eq_zero_or_pos k with rfl | hpos
    · omega
    · exact hpos
  have hmul := mul_le_mul_right fs.inodeSize
    (succ_le_of_lt (mod_lt ((ino - 1) % fs.inodesPerGroup) hkpos))
  rw [succ_mul, mul_comm k, ← hk] at hmul
  omega

/-- The records of two inodes do not overlap. -/
theorem disjoint (hi : HasRecord fs ino) (hi' : HasRecord fs ino') (hne : ino ≠ ino')
    (hblock : tableBlock fs ino = tableBlock fs ino') :
    tableOffset fs ino + 128 ≤ tableOffset fs ino' ∨
    tableOffset fs ino' + 128 ≤ tableOffset fs ino := by
  obtain ⟨⟨k, hk⟩, h128⟩ := h.inodeSize
  have hg := h.apart _ _ _ hi.2 hi'.2 (h.tableBlock_range ino) (hblock ▸ h.tableBlock_range ino')
  obtain ⟨l, hl⟩ : ∃ l, l = (ino - 1) % fs.inodesPerGroup := ⟨_, rfl⟩
  obtain ⟨l', hl'⟩ : ∃ l', l' = (ino' - 1) % fs.inodesPerGroup := ⟨_, rfl⟩
  have hll : l ≠ l' := fun heq => hne (ino_eq hi.1.1 hi'.1.1 hg (hl ▸ hl' ▸ heq))
  rw [tableBlock, tableBlock, hg, ← hl, ← hl', (h.position hk _).1, (h.position hk _).1] at hblock
  rw [tableOffset, tableOffset, ← hl, ← hl', (h.position hk _).2, (h.position hk _).2]
  have hmod : l % k ≠ l' % k := by
    intro hmod
    apply hll
    rw [← div_add_mod l k, ← div_add_mod l' k, hmod, add_left_cancel hblock]
  rcases lt_or_gt_of_ne hmod with hlt | hlt
  · left
    have := mul_le_mul_right fs.inodeSize (succ_le_of_lt hlt)
    rw [succ_mul] at this
    omega
  right
  have := mul_le_mul_right fs.inodeSize (succ_le_of_lt hlt)
  rw [succ_mul] at this
  omega

end Tables

section Apart
variable (h : Layout fs)
include h

theorem Layout.block_lt (hb : b < fs.blocksCount) : b < 2 ^ 32 :=
  lt_of_le_u32Max (hb.le.trans h.blocksCount.2)

theorem Layout.ino_lt (hi : ValidIno fs ino) : ino < 2 ^ 32 :=
  lt_of_le_u32Max (hi.2.trans h.inodesCount.2.le)

/-- The metadata of one group is no other group's. -/
theorem Layout.group_eq (hi : i < fs.groups.length) (hj : j < fs.groups.length)
    (hx : x ∈ groupMeta fs (groupAt fs i)) (hx' : x ∈ groupMeta fs (groupAt fs j)) : i = j := by
  have hpair := (nodup_flatMap.1 (nodup_append.1 h.nodup).2.1).2
  rw [pairwise_iff_getElem] at hpair
  rw [groupAt, getD_eq_getElem _ _ hi] at hx
  rw [groupAt, getD_eq_getElem _ _ hj] at hx'
  rcases lt_trichotomy i j with hlt | heq | hlt
  · exact absurd hx' (hpair i j hi hj hlt hx)
  · exact heq
  · exact absurd hx (hpair j i hj hi hlt hx')

theorem Layout.tables : Tables fs where
  inodesPerGroup := h.inodesPerGroup.1
  inodeSize := h.inodeSize
  apart _ _ _ hi hj hx hx' :=
    h.group_eq hi hj (mem_cons_of_mem _ (mem_cons_of_mem _ hx))
      (mem_cons_of_mem _ (mem_cons_of_mem _ hx'))

theorem Layout.groupMeta_nodup (hi : i < fs.groups.length) : (groupMeta fs (groupAt fs i)).Nodup :=
  (nodup_flatMap.1 (nodup_append.1 h.nodup).2.1).1 _ (groupAt_mem hi)

theorem Layout.blockGroup_lt (hb : b < fs.blocksCount) :
    b / fs.blocksPerGroup < fs.groups.length := by
  rw [div_lt_iff_lt_mul h.blocksPerGroup.1]
  exact hb.trans_le h.blocksCount.1

theorem Layout.inodeGroup_lt (hi : ValidIno fs ino) :
    (ino - 1) / fs.inodesPerGroup < fs.groups.length := by
  rw [div_lt_iff_lt_mul h.inodesPerGroup.1]
  have := h.inodesCount.1
  obtain ⟨h0, hle⟩ := hi
  omega

theorem Layout.hasRecord (hi : ValidIno fs ino) : HasRecord fs ino := ⟨hi, h.inodeGroup_lt hi⟩

omit h in
theorem Layout.bitmapOfBlock_mem (b : ℕ) :
    bitmapOfBlock fs b ∈ groupMeta fs (groupAt fs (b / fs.blocksPerGroup)) :=
  mem_cons_self

/-- No block bitmap is an inode bitmap or lies in an inode table. -/
theorem Layout.blockBitmap_ne (hi : i < fs.groups.length) (hj : j < fs.groups.length)
    (hx : x ∈ (groupMeta fs (groupAt fs j)).tail) : (groupAt fs i).blockBitmap ≠ x := by
  rintro rfl
  have hnd := h.groupMeta_nodup hj
  obtain rfl := h.group_eq hi hj mem_cons_self (mem_of_mem_tail hx)
  exact (nodup_cons.1 hnd).1 hx

omit h in
theorem Layout.bitmapOfInode_tail (ino : ℕ) :
    bitmapOfInode fs ino ∈ (groupMeta fs (groupAt fs ((ino - 1) / fs.inodesPerGroup))).tail :=
  mem_cons_self

omit h in
theorem Layout.bitmapOfInode_mem (ino : ℕ) :
    bitmapOfInode fs ino ∈ groupMeta fs (groupAt fs ((ino - 1) / fs.inodesPerGroup)) :=
  mem_of_mem_tail (Layout.bitmapOfInode_tail ino)

theorem Layout.tableBlock_tail (ino : ℕ) :
    tableBlock fs ino ∈ (groupMeta fs (groupAt fs ((ino - 1) / fs.inodesPerGroup))).tail :=
  mem_cons_of_mem _ (h.tables.tableBlock_range ino)

theorem Layout.tableBlock_mem (ino : ℕ) :
    tableBlock fs ino ∈ groupMeta fs (groupAt fs ((ino - 1) / fs.inodesPerGroup)) :=
  mem_of_mem_tail (h.tableBlock_tail ino)

theorem Layout.bitmapOfBlock_ne_bitmapOfInode (hb : b < fs.blocksCount)
    (hi : ValidIno fs ino) : bitmapOfBlock fs b ≠ bitmapOfInode fs ino :=
  h.blockBitmap_ne (h.blockGroup_lt hb) (h.inodeGroup_lt hi) (Layout.bitmapOfInode_tail ino)

theorem Layout.bitmapOfBlock_ne_tableBlock (hb : b < fs.blocksCount)
    (hi : ValidIno fs ino) : bitmapOfBlock fs b ≠ tableBlock fs ino :=
  h.blockBitmap_ne (h.blockGroup_lt hb) (h.inodeGroup_lt hi) (h.tableBlock_tail ino)

theorem Layout.bitmapOfInode_ne_tableBlock (hi : ValidIno fs ino) (hi' : ValidIno fs ino') :
    bitmapOfInode fs ino ≠ tableBlock fs ino' := by
  intro heq
  have hg := h.group_eq (h.inodeGroup_lt hi) (h.inodeGroup_lt hi') (Layout.bitmapOfInode_mem ino)
    (heq ▸ h.tableBlock_mem ino')
  have hnd := h.groupMeta_nodup (h.inodeGroup_lt hi')
  have hmem := h.tables.tableBlock_range ino'
  rw [← heq, bitmapOfInode, hg] at hmem
  rw [groupMeta, nodup_cons, nodup_cons] at hnd
  exact hnd.2.1 hmem

/-- In a sound layout every block has a bit of its own. -/
theorem Layout.sameBit_iff (hb : b < fs.blocksCount) (hc : c < fs.blocksCount) :
    SameBit fs b c ↔ b = c := by
  refine ⟨fun ⟨hbm, hmod⟩ => ?_, fun heq => heq ▸ ⟨rfl, rfl⟩⟩
  have hg := h.group_eq (h.blockGroup_lt hb) (h.blockGroup_lt hc) (Layout.bitmapOfBlock_mem b)
    (hbm ▸ Layout.bitmapOfBlock_mem c)
  rw [← div_add_mod b fs.blocksPerGroup, hg, hmod, div_add_mod]

theorem Layout.inode_bit_injective (hi : ValidIno fs ino) (hi' : ValidIno fs ino')
    (hbm : bitmapOfInode fs ino = bitmapOfInode fs ino')
    (hmod : (ino - 1) % fs.inodesPerGroup = (ino' - 1) % fs.inodesPerGroup) : ino = ino' := by
  have hg := h.group_eq (h.inodeGroup_lt hi) (h.inodeGroup_lt hi') (Layout.bitmapOfInode_mem ino)
    (hbm ▸ Layout.bitmapOfInode_mem ino')
  exact ino_eq hi.1 hi'.1 hg hmod

end Apart

end Ristux.Ext2
