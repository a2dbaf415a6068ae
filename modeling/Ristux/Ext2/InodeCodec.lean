import Ristux.Ext2.Inode

namespace Ristux.Ext2
open Lib Nat List Buf Inode

/-- The fields fit the widths of the record. -/
structure Inode.Fits (inode : Inode) : Prop where
  mode : inode.mode < 2 ^ 16
  uid : inode.uid < 2 ^ 32
  gid : inode.gid < 2 ^ 32
  size : inode.size < 2 ^ 64
  atime : inode.atime < 2 ^ 32
  ctime : inode.ctime < 2 ^ 32
  mtime : inode.mtime < 2 ^ 32
  links : inode.links < 2 ^ 16
  blocks : ∀ i, inode.blocks i < 2 ^ 32

/-- What a record keeps of an inode: only a regular file has the upper half of the size. -/
def Inode.stored (inode : Inode) : Inode :=
  { inode with size := if inode.isFile then inode.size else inode.size % 2 ^ 32 }

theorem Inode.stored_of_lt {inode : Inode} (h : inode.size < 2 ^ 32) : inode.stored = inode := by
  rw [stored, mod_eq_of_lt h, ite_self]

theorem Inode.stored_of_isFile {inode : Inode} (h : inode.isFile = true) : inode.stored = inode := by
  simp [stored, h]

theorem or_shiftLeft_eq (ha : a < 2 ^ m) (b : ℕ) : a ||| b <<< m = 2 ^ m * b + a := by
  rw [two_pow_add_eq_or_of_lt ha, Nat.or_comm, shiftLeft_eq, Nat.mul_comm]

theorem decodeInode_fits (raw : Buf) : (decodeInode raw).Fits := by
  have h16 : ∀ o, raw.u16At o < 2 ^ 16 := fun o => raw.u16At_lt o
  have h32 : ∀ o, raw.u32At o < 2 ^ 32 := fun o => raw.u32At_lt o
  have hid : ∀ o p, raw.u16At o ||| raw.u16At p <<< 16 < 2 ^ 32 := fun o p => by
    have := h16 o
    have := h16 p
    rw [or_shiftLeft_eq (h16 o)]
    omega
  refine ⟨h16 0, hid 2 120, hid 24 122, ?_, h32 8, h32 12, h32 16, h16 26, fun i => h32 _⟩
  have := h32 4
  have := h32 108
  simp only [decodeInode]
  rw [or_shiftLeft_eq (h32 4)]
  split_ifs <;> omega

theorem decodeInode_stored (raw : Buf) : (decodeInode raw).stored = decodeInode raw := by
  by_cases h : (decodeInode raw).isFile = true
  · exact stored_of_isFile h
  apply stored_of_lt
  have hnot : ¬raw.u16At 0 &&& ext2SIfmt = ext2SIfreg := fun hreg => h (decide_eq_true hreg)
  have hlow : raw.u32At 4 < 2 ^ 32 := raw.u32At_lt 4
  simp only [decodeInode]
  rw [if_neg hnot, or_shiftLeft_eq hlow]
  simpa using hlow

section Encode
variable (sectors : ℕ)

/-- Each field of the record is read back as it was written. -/
theorem encodeInode_fields (h : inode.Fits) : (encodeInode inode sectors).u16At 0 = inode.mode ∧
    (encodeInode inode sectors).u16At 2 = inode.uid % 65536 ∧
    (encodeInode inode sectors).u32At 4 = inode.size % 4294967296 ∧
    (encodeInode inode sectors).u32At 8 = inode.atime ∧
    (encodeInode inode sectors).u32At 12 = inode.ctime ∧
    (encodeInode inode sectors).u32At 16 = inode.mtime ∧
    (encodeInode inode sectors).u16At 24 = inode.gid % 65536 ∧
    (encodeInode inode sectors).u16At 26 = inode.links ∧
    (encodeInode inode sectors).u32At 108 = inode.size / 4294967296 ∧
    (encodeInode inode sectors).u16At 120 = inode.uid / 65536 ∧
    (encodeInode inode sectors).u16At 122 = inode.gid / 65536 := by
  have hsize := h.size
  have huid := h.uid
  have hgid := h.gid
  refine ⟨?_, ?_, ?_, ?_, ?_, ?_, ?_, ?_, ?_, ?_, ?_⟩ <;>
    simp (disch := simp) only [encodeInode, u16At_setU16_ne, u16At_setU32_ne,
      u16At_storeU32s_ne, u16At_setU16, u32At_setU16_ne, u32At_setU32_ne,
      u32At_storeU32s_ne, u32At_setU32, shiftRight_eq_div_pow]
  · exact mod_eq_of_lt h.mode
  · exact mod_eq_of_lt h.atime
  · exact mod_eq_of_lt h.ctime
  · exact mod_eq_of_lt h.mtime
  · exact mod_eq_of_lt h.links
  · omega
  · omega
  · omega

theorem encodeInode_blocks (h : inode.Fits) (i : Fin 15) :
    (encodeInode inode sectors).u32At (40 + i * 4) = inode.blocks i := by
  have hlen : (i : ℕ) < (ofFn inode.blocks).length := by simp
  dsimp only [encodeInode]
  rw [u32At_setU16_ne (by omega), u32At_setU16_ne (by omega),
    u32At_setU32_ne (by omega), show 40 + (i : ℕ) * 4 = 4 * (10 + i) by omega,
      u32At_storeU32s hlen]
  rw [get_eq_getElem, List.getElem_ofFn]
  exact mod_eq_of_lt (h.blocks i)

theorem decodeInode_encodeInode (h : inode.Fits) :
    decodeInode (encodeInode inode sectors) = inode.stored := by
  obtain ⟨hmode, huid, hsize, hatime, hctime, hmtime, hgid, hlinks, hhigh, huid', hgid'⟩ :=
    encodeInode_fields sectors h
  have hid : ∀ n : ℕ, n % 65536 ||| (n / 65536) <<< 16 = n := fun n => by
    rw [or_shiftLeft_eq (by omega)]
    omega
  ext i
  · exact hmode
  · rw [decodeInode, huid, huid', hid]
    rfl
  · rw [decodeInode, hgid, hgid', hid]
    rfl
  · have hkind : inode.stored.size = if inode.mode &&& ext2SIfmt = ext2SIfreg then inode.size
        else inode.size % 4294967296 := by
      simp [stored, isFile]
    dsimp only [decodeInode]
    rw [hsize, hhigh, hmode, or_shiftLeft_eq (by omega), hkind]
    split_ifs <;> omega
  · exact hatime
  · exact hctime
  · exact hmtime
  · exact hlinks
  · exact encodeInode_blocks sectors h i

end Encode

end Ristux.Ext2
