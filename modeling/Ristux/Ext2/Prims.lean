import Ristux.Lib.Refine
import Ristux.Ext2.Store

-- `At fs s w` says that the device of `w` is complete and holds the store `s`.

namespace Ristux.Ext2
open Lib Proc List Res Nat

def At (fs : Ext2Fs) (s : Store) (w : World) : Prop :=
  (∀ b < fs.blocksCount, OnDevice fs w.dev b) ∧ storeOf fs (diskOf fs w.dev) = s

section Search
variable {space : BitSpace} (bitmap : Buf)

/-- The limits under which a search cannot panic: numbers are consecutive, and the search
stops at `limit`, which is still representable. -/
structure BitSpace.Regular (space : BitSpace) (per c limit : ℕ) (start : ℕ → ℕ) : Prop where
  number : ∀ g bit, space.number g bit = g * per + bit + c
  past : ∀ n, space.past n = decide (limit ≤ n)
  bits : ∀ g, space.bits g = range' (start g) (per - start g)
  limit : limit ≤ u32Max
  per : 0 < per ∧ per ≤ 8192
  startPos : ∀ g, 0 < g → start g = 0
  startZero : start 0 + c ≤ 8192

/-- A scan that finds nothing has seen that all bits up to the limit are used. -/
theorem scanBits_range (hnum : ∀ bit, space.number group bit = base + bit)
    (hpast : ∀ n, space.past n = decide (limit ≤ n)) (hlimit : limit ≤ u32Max)
    (hlen : start + len ≤ 8192) (hstart : base + start ≤ u32Max) :
    (∃ bit, scanBits space group bitmap (range' start len) = .ok (some bit)) ∨
    (∀ bit, start ≤ bit → bit < start + len → base + bit < limit → Bitmap.bit bitmap bit = true) ∧
      (scanBits space group bitmap (range' start len) = .ok none ∧
        (len ≠ 0 → base + (start + len) ≤ limit) ∨
      scanBits space group bitmap (range' start len) = err .noSpace ∧ len ≠ 0 ∧
        limit < base + (start + len)) := by
  induction len generalizing start with
  | zero => exact .inr ⟨fun bit _ _ => by omega, .inl ⟨rfl, fun h => absurd rfl h⟩⟩
  | succ len ih =>
    rw [range'_succ, scanBits_cons, hnum, hpast, if_pos hstart]
    by_cases hl : limit ≤ base + start
    · rw [if_pos (by simpa using hl)]
      exact .inr ⟨fun bit _ _ => by omega, .inr ⟨rfl, by omega, by omega⟩⟩
    rw [if_neg (by simpa using hl), if_pos (by omega)]
    by_cases hb : Bitmap.bit bitmap start = true
    · rw [if_pos hb]
      refine (@ih (start + 1) (by omega) (by omega)).imp_right fun ⟨hall, hres⟩ => ⟨?_, ?_⟩
      · intro bit hle hlt hbit
        rcases hle.eq_or_lt with rfl | hlt'
        · exact hb
        · exact hall bit hlt' (by omega) hbit
      · refine hres.imp (And.imp_right fun hle _ => ?_) (And.imp_right fun hlt => by omega)
        rcases Nat.eq_zero_or_pos len with rfl | hpos
        · omega
        · have := hle (by omega)
          omega
    · rw [if_neg hb]
      exact .inl ⟨start, rfl⟩

end Search

section Allocate
variable {fs : Ext2Fs} (hbs : fs.blockSize = 1024) {space : BitSpace}
  (hspace : space.Regular per c limit start)
include hbs hspace

/-- A search that finds nothing reports that there is no space, and it is right. -/
theorem allocateFrom_error (hdev : ∀ group ∈ groups, OnDevice fs w.dev (space.bitmapOf group))
    (hindex : index * per + c ≤ u32Max)
    (h : allocateFrom fs space index groups w = (.error e, w')) : e = .err .noSpace ∧
    ∀ k group, groups[k]? = some group → ∀ bit, start (index + k) ≤ bit → bit < per →
    (index + k) * per + bit + c < limit → Bitmap.bit (diskOf fs w.dev (space.bitmapOf group)) bit =
    true := by
  induction groups generalizing index with
  | nil =>
    cases h
    exact ⟨rfl, by simp⟩
  | cons group groups ih =>
    obtain ⟨hpos, hper⟩ := hspace.per
    have hzero := hspace.startZero
    have hmax : 8192 ≤ u32Max := by decide
    have hd := hdev group mem_cons_self
    rw [allocateFrom, reading_bind_of_ok (readBlockSized_of_onDevice hbs le_rfl hd),
      hspace.bits] at h
    have hstart : index = 0 ∨ start index = 0 := index.eq_zero_or_pos.imp_right (hspace.startPos _)
    have hlen : start index + (per - start index) ≤ 8192 := by
      rcases hstart with rfl | h0 <;> omega
    have hfirst : index * per + c + start index ≤ u32Max := by
      rcases hstart with rfl | h0 <;> omega
    have hnum : ∀ bit, space.number index bit = index * per + c + bit := fun bit => by
      rw [hspace.number]
      omega
    rcases scanBits_range (diskOf fs w.dev (space.bitmapOf group)) hnum hspace.past
      hspace.limit hlen hfirst with ⟨bit, hscan⟩ | ⟨hset, hres⟩
    · rw [hscan, lift_ok_bind] at h
      have hbit := (scanBits_sound hscan).2.2.2.2
      simp only [setBitmapBit, check_of hbit, ok_bind, lift_ok_bind] at h
      rw [bind_of_ok (writeBlockSized_of_onDevice hbs _ le_rfl hd)] at h
      cases h
    have hthis : ∀ bit, start (index + 0) ≤ bit → bit < per → (index + 0) * per + bit + c < limit →
        Bitmap.bit (diskOf fs w.dev (space.bitmapOf group)) bit = true := by
      rw [add_zero]
      exact fun bit hb hb' hlim => hset bit hb (by omega) (by omega)
    rcases hres with ⟨hscan, hle⟩ | ⟨hscan, hne, hlt⟩
    · rw [hscan, lift_ok_bind] at h
      have hnext : (index + 1) * per + c ≤ u32Max := by
        have := hspace.limit
        rw [succ_mul]
        by_cases hl : per - start index = 0
        · rcases hstart with rfl | h0 <;> omega
        · have := hle hl
          omega
      obtain ⟨he, hall⟩ := ih (forall_mem_cons.1 hdev).2 hnext h
      refine ⟨he, fun k g hg bit hb hb' hlim => ?_⟩
      cases k with
      | zero =>
        cases hg
        exact hthis bit hb hb' hlim
      | succ k =>
        rw [show index + (k + 1) = index + 1 + k by omega] at hb hlim
        exact hall k g hg bit hb hb' hlim
    rw [hscan] at h
    cases h
    refine ⟨rfl, fun k g hg bit hb hb' hlim => ?_⟩
    cases k with
    | zero =>
      cases hg
      exact hthis bit hb hb' hlim
    | succ k =>
      have : (index + 1) * per ≤ (index + (k + 1)) * per := mul_le_mul_right _ (by omega)
      rw [succ_mul] at this
      omega

end Allocate

section Bits
variable (h : Layout fs)
include h

theorem blockSpace_regular : (blockSpace fs).Regular fs.blocksPerGroup 0 fs.blocksCount fun _ => 0 where
  number _ _ := rfl
  past _ := rfl
  bits _ := by simp [blockSpace, range_eq_range']
  limit := h.blocksCount.2
  per := h.blocksPerGroup
  startPos _ _ := rfl
  startZero := by decide

theorem inodeSpace_regular : (inodeSpace fs).Regular fs.inodesPerGroup 1 (fs.inodesCount + 1)
    fun g => if g = 0 then 10 else 0 where
  number _ _ := rfl
  past _ := rfl
  bits _ := rfl
  limit := h.inodesCount.2
  per := h.inodesPerGroup
  startPos _ hg := if_neg (by omega)
  startZero := by decide

omit h in
theorem At.setBlock (hw : At fs s w)
    (hs : storeOf fs (Function.update (diskOf fs w.dev) b data) = s') :
    At fs s' (w.setBlock fs b data) :=
  ⟨fun c hc => hw.1 c hc, by rw [diskOf_setBlock, hs]⟩

theorem At.groupMeta_onDevice (hw : At fs s w) (hi : i < fs.groups.length)
    (hx : x ∈ groupMeta fs (groupAt fs i)) : OnDevice fs w.dev x :=
  hw.1 x (h.inRange x (groupMeta_subset hi hx))

theorem At.group_onDevice (hw : At fs s w) (hg : group ∈ fs.groups)
    (hx : x ∈ groupMeta fs group) : OnDevice fs w.dev x :=
  hw.1 x (h.inRange x (mem_append_right _ (mem_flatMap.2 ⟨_, hg, hx⟩)))

omit h in
theorem At.blockUsed_eq (hw : At fs s w) (hb : b < fs.blocksCount) :
    s.blockUsed b = blockUsed fs (diskOf fs w.dev) b := by
  rw [← hw.2]
  simp [storeOf, hb]

omit h in
theorem At.inodeUsed_eq (hw : At fs s w) (hi : ValidIno fs ino) :
    s.inodeUsed ino = inodeUsed fs (diskOf fs w.dev) ino := by
  rw [← hw.2]
  simp [storeOf, hi]

theorem allocateBlock_does : Does (At fs) (allocateBlock fs) s fun r s' =>
    (∃ b, b < fs.blocksCount ∧ s.blockUsed b = false ∧ r = .ok b ∧ s' = s.setBlockUsed b true) ∨
    (r = err .noSpace ∧ s' = s ∧ ∀ b < fs.blocksCount, s.blockUsed b = true) := by
  intro w hw
  rcases allocateBlock_cases h.blockSize w with ⟨e, he⟩ | ⟨b, w', hlt, -, -, hfree, heq, hd, hc⟩
  · obtain ⟨rfl, hall⟩ := allocateFrom_error h.blockSize (blockSpace_regular h)
      (fun group hg => hw.group_onDevice h hg mem_cons_self) (by simp) he
    rw [he]
    refine ⟨s, hw, .inr ⟨rfl, rfl, fun b hb => ?_⟩⟩
    have hg := h.blockGroup_lt hb
    rw [hw.blockUsed_eq hb, blockUsed, bitmapOfBlock, groupAt, getD_eq_getElem _ _ hg]
    refine hall _ _ (getElem?_eq_getElem hg) (b % fs.blocksPerGroup) (zero_le _)
      (mod_lt _ h.blocksPerGroup.1) ?_
    rwa [zero_add, add_zero, mul_comm, div_add_mod]
  rw [heq]
  refine ⟨_, ⟨fun c hcb => ?_, ?_⟩, .inl ⟨b, hlt, ?_, rfl, rfl⟩⟩
  · have := hw.1 c hcb
    rwa [OnDevice, hc]
  · rw [hd, storeOf_markBlock h _ hlt, hw.2]
  · rw [hw.blockUsed_eq hlt, hfree]

theorem allocateInode_does : Does (At fs) (allocateInode fs) s fun r s' =>
    (∃ ino, Ordinary fs ino ∧ s.inodeUsed ino = false ∧ r = .ok ino ∧
      s' = s.setInodeUsed ino true) ∨
    (r = err .noSpace ∧ s' = s ∧ ∀ ino, Ordinary fs ino → s.inodeUsed ino = true) := by
  intro w hw
  rcases allocateFrom_cases h.blockSize (inodeSpace fs) 0 fs.groups w with
    ⟨e, he⟩ | ⟨k, group, bit, hgroup, hbit, -, hpast, hclear, heq⟩
  · obtain ⟨rfl, hall⟩ := allocateFrom_error h.blockSize (inodeSpace_regular h)
      (fun group hg => hw.group_onDevice h hg (mem_cons_of_mem _ mem_cons_self))
      (by rw [zero_mul]; decide) he
    rw [allocateInode, he]
    refine ⟨s, hw, .inr ⟨rfl, rfl, fun ino ⟨hi, hord⟩ => ?_⟩⟩
    have hg := h.inodeGroup_lt hi
    have hpos := h.inodesPerGroup.1
    have hdm := div_add_mod (ino - 1) fs.inodesPerGroup
    have hle := hi.2
    rw [hw.inodeUsed_eq hi, inodeUsed, bitmapOfInode, groupAt, getD_eq_getElem _ _ hg]
    refine hall _ _ (getElem?_eq_getElem hg) ((ino - 1) % fs.inodesPerGroup) ?_
      (mod_lt _ hpos) ?_
    · rw [zero_add]
      split_ifs with hzero
      · have hlt := (div_eq_zero_iff_lt hpos).1 hzero
        rw [mod_eq_of_lt hlt]
        omega
      · exact zero_le _
    · rw [zero_add, mul_comm]
      omega
  rw [zero_add] at hbit hpast heq
  have hlt : bit < fs.inodesPerGroup := by
    have := (mem_range'_1.1 hbit).2
    have := (mem_range'_1.1 hbit).1
    omega
  have hidx : (inodeSpace fs).number k bit - 1 = fs.inodesPerGroup * k + bit := by
    simp [inodeSpace, mul_comm]
  have hdiv : ((inodeSpace fs).number k bit - 1) / fs.inodesPerGroup = k := by
    rw [hidx, mul_add_div (by omega), div_eq_of_lt hlt, add_zero]
  have hmod : ((inodeSpace fs).number k bit - 1) % fs.inodesPerGroup = bit := by
    rw [hidx, mul_add_mod, mod_eq_of_lt hlt]
  have hbm : bitmapOfInode fs ((inodeSpace fs).number k bit) = group.inodeBitmap := by
    rw [bitmapOfInode, hdiv, groupAt_of_getElem? hgroup]
  have hvalid : ValidIno fs ((inodeSpace fs).number k bit) := by
    refine ⟨by simp [inodeSpace], ?_⟩
    simpa [inodeSpace] using hpast
  have hs := storeOf_markInode h (diskOf fs w.dev) hvalid true
  rw [markInode, hbm, hmod, hw.2] at hs
  rw [allocateInode, heq]
  refine ⟨_, hw.setBlock hs, .inl ⟨_, ⟨hvalid, fun hle => ?_⟩, ?_, rfl, rfl⟩⟩
  · have hnum : (inodeSpace fs).number k bit = k * fs.inodesPerGroup + bit + 1 := rfl
    have hk : k = 0 := by
      by_contra hk
      have := Nat.le_mul_of_pos_left fs.inodesPerGroup (Nat.pos_of_ne_zero hk)
      omega
    subst hk
    have hstart := (mem_range'_1.1 hbit).1
    rw [if_pos rfl, ext2FirstNormalIno] at hstart
    omega
  · rw [hw.inodeUsed_eq hvalid, inodeUsed, hbm, hmod]
    exact hclear

theorem freeBit_eq (hg : index / per < fs.groups.length)
    (hper : 0 < per ∧ per ≤ 8192) (hd : OnDevice fs w.dev (bitmapOf (groupAt fs (index / per)))) :
    freeBit fs bitmapOf per index w = (.ok (), w.setBlock fs (bitmapOf (groupAt fs (index / per)))
      (Bitmap.setBit (diskOf fs w.dev (bitmapOf (groupAt fs (index / per)))) (index % per)
      false)) := by
  have hmod := mod_lt index hper.1
  rw [groupAt, getD_eq_getElem _ _ hg] at hd ⊢
  rw [freeBit, getElem?_eq_getElem hg, okOr_some, lift_ok_bind,
    reading_bind_of_ok (readBlockSized_of_onDevice h.blockSize le_rfl hd)]
  simp only [setBitmapBit, check_of (show index % per / 8 < 1024 by omega), ok_bind, lift_ok_bind]
  exact writeBlockSized_of_onDevice h.blockSize _ le_rfl hd

theorem freeBlock_does (hb : b < fs.blocksCount) : Does (At fs)
    (freeBlock fs b) s (Ends () (s.setBlockUsed b false)) := by
  intro w hw
  have hg := h.blockGroup_lt hb
  have hd := hw.groupMeta_onDevice h hg (Layout.bitmapOfBlock_mem b)
  rw [freeBlock, if_neg (by omega), freeBit_eq h hg h.blocksPerGroup hd]
  refine ⟨_, hw.setBlock ?_, rfl, rfl⟩
  rw [← hw.2, ← storeOf_markBlock h _ hb]
  rfl

theorem freeInode_does (hi : ValidIno fs ino) : Does (At fs)
    (freeInode fs ino) s (Ends () (s.setInodeUsed ino false)) := by
  intro w hw
  have hg := h.inodeGroup_lt hi
  have hd := hw.groupMeta_onDevice h hg (Layout.bitmapOfInode_mem ino)
  obtain ⟨h0, hle⟩ := hi
  rw [freeInode, if_neg (by omega), freeBit_eq h hg h.inodesPerGroup hd]
  refine ⟨_, hw.setBlock ?_, rfl, rfl⟩
  rw [← hw.2, ← storeOf_markInode h _ ⟨h0, hle⟩]
  rfl

end Bits

section Records
variable (h : Layout fs)

theorem At.inode_eq (hw : At fs s w) (hi : ValidIno fs ino) :
    s.inode ino = inodeAt fs (diskOf fs w.dev) ino := by
  rw [← hw.2]
  simp [storeOf, hi]

theorem At.inode_fits (hw : At fs s w) (ino : ℕ) : (s.inode ino).Fits := by
  rw [← hw.2]
  exact decodeInode_fits _

theorem At.inode_stored (hw : At fs s w) (ino : ℕ) : (s.inode ino).stored = s.inode ino := by
  rw [← hw.2]
  exact decodeInode_stored _

theorem inodeLocation_eq (hbs : fs.blockSize = 1024) (hi : HasRecord fs ino) :
    inodeLocation fs ino = .ok (tableBlock fs ino, tableOffset fs ino) := by
  obtain ⟨⟨h0, hle⟩, hg⟩ := hi
  rw [inodeLocation, if_neg (by omega), hbs, tableBlock, tableOffset, groupAt,
    getD_eq_getElem _ _ hg]
  dsimp only
  rw [getElem?_eq_getElem hg, okOr_some, ok_bind]

section
variable (ht : Tables fs) (hbs : fs.blockSize = 1024) (hi : HasRecord fs ino)
include ht hbs hi

theorem readInode_of_onDevice (hd : OnDevice fs dev (tableBlock fs ino)) :
    readInode fs ino dev = .ok (inodeAt fs (diskOf fs dev) ino) := by
  have hle := ht.tableOffset_le ino
  rw [readInode, inodeLocation_eq hbs hi, ok_bind]
  dsimp only
  rw [readBlockSized_of_onDevice hbs hbs.ge hd, ok_bind, hbs, if_neg (by omega), inodeAt]

theorem writeInode_of_onDevice (hd : OnDevice fs w.dev (tableBlock fs ino))
    (hfits : inode.Fits) : ∃ raw, decodeInode raw = inode.stored ∧ writeInode fs ino inode w =
      (.ok (), w.setBlock fs (tableBlock fs ino)
        (putInode fs ino raw (diskOf fs w.dev) (tableBlock fs ino))) := by
  have hsectors : (fun dev => (.ok (inodeSectorCount fs inode dev) : R ℕ)) w.dev =
      .ok (inodeSectorCount fs inode w.dev) := rfl
  refine ⟨_, decodeInode_encodeInode (inodeSectorCount fs inode w.dev) hfits, ?_⟩
  rw [writeInode, inodeLocation_eq hbs hi, lift_ok_bind]
  dsimp only
  rw [reading_bind_of_ok (readBlockSized_of_onDevice hbs le_rfl hd),
    check_of (ht.tableOffset_le ino), lift_ok_bind, reading_bind_of_ok hsectors,
    writeBlockSized_of_onDevice hbs _ le_rfl hd, putInode, Function.update_self]

end

include h

theorem readInode_eq (hw : At fs s w) (hi : ValidIno fs ino) :
    readInode fs ino w.dev = .ok (s.inode ino) := by
  have hd := hw.groupMeta_onDevice h (h.inodeGroup_lt hi) (h.tableBlock_mem ino)
  rw [readInode_of_onDevice h.tables h.blockSize (h.hasRecord hi) hd, hw.inode_eq hi]

theorem writeInode_does (hi : ValidIno fs ino) (hfits : inode.Fits) : Does (At fs)
    (writeInode fs ino inode) s (Ends () (s.setInode ino inode.stored)) := by
  intro w hw
  have hd := hw.groupMeta_onDevice h (h.inodeGroup_lt hi) (h.tableBlock_mem ino)
  obtain ⟨raw, hraw, heq⟩ := writeInode_of_onDevice h.tables h.blockSize (h.hasRecord hi) hd hfits
  have hs := storeOf_putInode h (diskOf fs w.dev) hi raw
  rw [hraw, hw.2] at hs
  rw [heq]
  exact ⟨_, hw.setBlock (by rw [← hs, putInode, Function.update_self]), rfl, rfl⟩

end Records

section Data
variable (h : Layout fs)

theorem At.block_eq (hw : At fs s w) (hb : DataBlock fs b) : diskOf fs w.dev b = s.block b := by
  rw [← hw.2]
  simp [storeOf, hb]

include h

theorem readBlock_eq (hw : At fs s w) (hb : DataBlock fs b) (hlen : 1024 ≤ len) :
    readBlockSized fs b len w.dev = .ok (s.block b) := by
  rw [readBlockSized_of_onDevice h.blockSize hlen (hw.1 b hb.1), hw.block_eq hb]

theorem writeBlock_does (hb : DataBlock fs b) (hlen : 1024 ≤ len) (data : Buf) :
    Does (At fs) (writeBlockSized fs b len data) s (Ends () (s.setBlock b data)) := by
  intro w hw
  rw [writeBlockSized_of_onDevice h.blockSize data hlen (hw.1 b hb.1)]
  refine ⟨_, hw.setBlock ?_, rfl, rfl⟩
  rw [storeOf_update h _ hb, hw.2]

end Data

/-- The clock is no part of the store. -/
theorem currentExt2Time_does : Does (At fs) currentExt2Time s
    fun r s' => s' = s ∧ ∃ now, now ≤ u32Max ∧ r = .ok now :=
  fun _ hw => ⟨s, hw, rfl, _, min_le_right _ _, rfl⟩

end Ristux.Ext2
