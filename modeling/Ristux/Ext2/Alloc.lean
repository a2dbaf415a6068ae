import Ristux.Ext2.Disk

namespace Ristux.Ext2
open Lib List Function Res Proc Nat Bitmap

section Scan
variable {bits : List ℕ}

variable {bit : ℕ}

theorem scanBits_cons :
    scanBits space group bitmap (bit :: bits) = if space.number group bit ≤ u32Max then
        if space.past (space.number group bit) then err .noSpace
        else if bit / 8 < 1024 then
          if Bitmap.bit bitmap bit then scanBits space group bitmap bits else .ok (some bit)
        else .error .panic
      else .error .panic := by
  rw [scanBits]
  by_cases h1 : space.number group bit ≤ u32Max
  · rw [if_pos h1, check_of h1, ok_bind]
    by_cases h2 : space.past (space.number group bit) = true
    · rw [if_pos h2, if_pos h2]
    rw [if_neg h2, if_neg h2, bitmapBit]
    by_cases h3 : bit / 8 < 1024
    · rw [if_pos h3, check_of h3, ok_bind, ok_bind]
      cases Bitmap.bit bitmap bit <;> rfl
    · rw [if_neg h3]
      simp [check, h3]
  · rw [if_neg h1]
    simp [check, h1]

theorem scanBits_sound (h : scanBits space group bitmap bits = .ok (some bit)) :
    bit ∈ bits ∧ space.number group bit ≤ u32Max ∧ space.past (space.number group bit) = false ∧
    Bitmap.bit bitmap bit = false ∧ bit / 8 < 1024 := by
  induction bits with
  | nil => simp [scanBits] at h
  | cons b bits ih =>
    rw [scanBits_cons] at h
    split_ifs at h with h1 h2 h3 h4
    · obtain ⟨hm, hrest⟩ := ih h
      exact ⟨mem_cons_of_mem _ hm, hrest⟩
    · cases h
      exact ⟨mem_cons_self, h1, by simpa using h2, by simpa using h4, h3⟩

end Scan

section Allocate
variable {fs : Ext2Fs} (hbs : fs.blockSize = 1024)
include hbs

/-- Allocation either fails and writes nothing, or sets one clear bit of one group. -/
theorem allocateFrom_cases (space : BitSpace) (index : ℕ) (groups : List BlockGroup) (w : World) :
    (∃ e, allocateFrom fs space index groups w = (.error e, w)) ∨
    ∃ k group bit, groups[k]? = some group ∧ bit ∈ space.bits (index + k) ∧
      space.number (index + k) bit ≤ u32Max ∧ space.past (space.number (index + k) bit) = false ∧
      Bitmap.bit (diskOf fs w.dev (space.bitmapOf group)) bit = false ∧
      allocateFrom fs space index groups w = (.ok (space.number (index + k) bit),
        w.setBlock fs (space.bitmapOf group)
          (setBit (diskOf fs w.dev (space.bitmapOf group)) bit true)) := by
  induction groups generalizing index with
  | nil => exact .inl ⟨_, rfl⟩
  | cons group groups ih =>
    rw [allocateFrom]
    rcases hread : readBlockSized fs (space.bitmapOf group) 1024 w.dev with e | bitmap
    · exact .inl ⟨e, reading_bind_of_error hread⟩
    obtain ⟨hdev, rfl⟩ := readBlockSized_eq_ok hbs hread
    rw [reading_bind_of_ok hread]
    rcases hscan : scanBits space index (diskOf fs w.dev (space.bitmapOf group))
        (space.bits index) with e | _ | bit
    · exact .inl ⟨e, rfl⟩
    · rw [lift_ok_bind]
      rcases ih (index + 1) with h | ⟨k, g, bit, hg, hbit, hmax, hpast, hclear, heq⟩
      · exact .inl h
      · rw [Nat.add_assoc, Nat.add_comm 1 k] at hbit hmax hpast heq
        exact .inr ⟨k + 1, g, bit, hg, hbit, hmax, hpast, hclear, heq⟩
    obtain ⟨hbit, hmax, hpast, hclear, hlt⟩ := scanBits_sound hscan
    refine .inr ⟨0, group, bit, rfl, hbit, hmax, hpast, hclear, ?_⟩
    simp only [setBitmapBit, check_of hlt, ok_bind, lift_ok_bind]
    rw [bind_of_ok (writeBlockSized_of_onDevice hbs _ le_rfl hdev)]
    rfl

end Allocate

def groupAt (fs : Ext2Fs) (index : ℕ) : BlockGroup := fs.groups.getD index ⟨0, 0, 0⟩

/-- The bitmap block that holds the bit of block `b`. -/
def bitmapOfBlock (fs : Ext2Fs) (b : ℕ) : ℕ := (groupAt fs (b / fs.blocksPerGroup)).blockBitmap

def blockUsed (fs : Ext2Fs) (d : Disk) (b : ℕ) : Bool :=
  bit (d (bitmapOfBlock fs b)) (b % fs.blocksPerGroup)

/-- Two blocks whose bits are one bit of the disk. Groups that share a bitmap have such
blocks; in a sound layout only `b = c` is left. -/
def SameBit (fs : Ext2Fs) (b c : ℕ) : Prop :=
  bitmapOfBlock fs b = bitmapOfBlock fs c ∧ b % fs.blocksPerGroup = c % fs.blocksPerGroup

instance (fs : Ext2Fs) (b c : ℕ) : Decidable (SameBit fs b c) := inferInstanceAs (Decidable (_ ∧ _))

/-- The disk after the bit of block `b` has been set to `used`. -/
def markBlock (fs : Ext2Fs) (b : ℕ) (used : Bool) (d : Disk) : Disk :=
  Function.update d (bitmapOfBlock fs b)
    (setBit (d (bitmapOfBlock fs b)) (b % fs.blocksPerGroup) used)

theorem blockUsed_markBlock (fs : Ext2Fs) (b c : ℕ) (used : Bool) (d : Disk) :
    blockUsed fs (markBlock fs b used d) c = if SameBit fs c b then used else blockUsed fs d c := by
  by_cases h : bitmapOfBlock fs c = bitmapOfBlock fs b
  · rw [blockUsed, markBlock, h, update_self, bit_setBit]
    by_cases hm : c % fs.blocksPerGroup = b % fs.blocksPerGroup
    · rw [if_pos hm, if_pos ⟨h, hm⟩]
    · rw [if_neg hm, if_neg fun hc => hm hc.2, blockUsed, h]
  · rw [blockUsed, markBlock, update_of_ne h, if_neg fun hc => h hc.1, blockUsed]

theorem groupAt_of_getElem? (h : fs.groups[index]? = some group) : groupAt fs index = group := by
  simp [groupAt, getD_eq_getElem?_getD, h]

section Block
variable {fs : Ext2Fs} (hbs : fs.blockSize = 1024)
include hbs

/-- Block allocation fails without a write or marks a free block as used. -/
theorem allocateBlock_cases (w : World) : (∃ e, allocateBlock fs w = (.error e, w)) ∨
    ∃ b w', b < fs.blocksCount ∧ b ≤ u32Max ∧ b / fs.blocksPerGroup < fs.groups.length ∧
      blockUsed fs (diskOf fs w.dev) b = false ∧ allocateBlock fs w = (.ok b, w') ∧
      diskOf fs w'.dev = markBlock fs b true (diskOf fs w.dev) ∧
      w'.dev.sectorCount = w.dev.sectorCount := by
  rcases allocateFrom_cases hbs (blockSpace fs) 0 fs.groups w with
    h | ⟨k, group, bit, hgroup, hbit, hmax, hpast, hclear, heq⟩
  · exact .inl h
  rw [Nat.zero_add] at hbit hmax hpast heq
  have hlt : bit < fs.blocksPerGroup := mem_range.1 hbit
  have hdiv : (k * fs.blocksPerGroup + bit) / fs.blocksPerGroup = k := by
    rw [Nat.mul_comm, mul_add_div (by omega), div_eq_of_lt hlt, Nat.add_zero]
  have hmod : (k * fs.blocksPerGroup + bit) % fs.blocksPerGroup = bit := by
    rw [Nat.mul_comm, mul_add_mod, mod_eq_of_lt hlt]
  have hbm : bitmapOfBlock fs (k * fs.blocksPerGroup + bit) = group.blockBitmap := by
    rw [bitmapOfBlock, hdiv, groupAt_of_getElem? hgroup]
  refine .inr ⟨k * fs.blocksPerGroup + bit, _, ?_, hmax, ?_, ?_, heq, ?_, rfl⟩
  · simpa [blockSpace] using hpast
  · rw [hdiv]
    exact (List.getElem?_eq_some_iff.1 hgroup).1
  · rw [blockUsed, hbm, hmod]
    exact hclear
  · rw [diskOf_setBlock, markBlock, hbm, hmod]
    rfl

/-- Freeing fails without a write or marks the block as free. -/
theorem freeBlock_cases (b : ℕ) (w : World) : (∃ e, freeBlock fs b w = (.error e, w)) ∨
    ∃ w', b < fs.blocksCount ∧ b / fs.blocksPerGroup < fs.groups.length ∧
      freeBlock fs b w = (.ok (), w') ∧ diskOf fs w'.dev = markBlock fs b false (diskOf fs w.dev) ∧
      w'.dev.sectorCount = w.dev.sectorCount := by
  rw [freeBlock]
  by_cases hb : b ≥ fs.blocksCount
  · exact .inl ⟨_, by rw [if_pos hb]; rfl⟩
  rw [if_neg hb, freeBit]
  rcases hgroup : fs.groups[b / fs.blocksPerGroup]? with _ | group
  · exact .inl ⟨_, rfl⟩
  rw [okOr_some, lift_ok_bind]
  rcases hread : readBlockSized fs group.blockBitmap 1024 w.dev with e | bitmap
  · exact .inl ⟨e, reading_bind_of_error hread⟩
  obtain ⟨hdev, rfl⟩ := readBlockSized_eq_ok hbs hread
  rw [reading_bind_of_ok hread]
  by_cases hlt : b % fs.blocksPerGroup / 8 < 1024
  · simp only [setBitmapBit, check_of hlt, ok_bind, lift_ok_bind]
    refine .inr ⟨_, by omega, (List.getElem?_eq_some_iff.1 hgroup).1,
      writeBlockSized_of_onDevice hbs _ le_rfl hdev, ?_, rfl⟩
    rw [diskOf_setBlock, markBlock, bitmapOfBlock, groupAt_of_getElem? hgroup]
  · refine .inl ⟨.panic, ?_⟩
    simp [setBitmapBit, check, hlt]

end Block

end Ristux.Ext2
