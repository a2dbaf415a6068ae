import Ristux.Ext2.Space

namespace Ristux.Ext2
open Lib Proc List

/-- The number of blocks it takes to store `data`. -/
def dataCost (data : List UInt8) : ℕ := blockCost (divCeil data.length 1024)

def DataFits (data : List UInt8) : Prop := divCeil data.length 1024 ≤ maxBlocks

/-- The blocks `N` were free and are taken now; nothing but them and their bits changed. -/
structure Took (fs : Ext2Fs) (s : Store) (N : List ℕ) (s' : Store) : Prop where
  nodup : N.Nodup
  free : ∀ b ∈ N, DataBlock fs b ∧ s.blockUsed b = false
  used : ∀ b, s'.blockUsed b = (s.blockUsed b || decide (b ∈ N))
  block : ∀ b, b ∉ N → s'.block b = s.block b
  inode : s'.inode = s.inode
  inodeUsed : s'.inodeUsed = s.inodeUsed

theorem Took.refl (fs : Ext2Fs) (s : Store) : Took fs s [] s :=
  ⟨nodup_nil, by simp, by simp, fun _ _ => rfl, rfl, rfl⟩

theorem Inode.block_mem_refs (d : Disk) (inode : Inode) (h : inode.blocks i ≠ 0) :
    inode.blocks i ∈ refs d inode := by
  have hroot : ∀ level, (level, inode.blocks i) ∈ inode.roots → inode.blocks i ∈ refs d inode :=
    fun level hr => mem_flatMap.2 ⟨_, hr, Forest.root_mem_nodes _ _⟩
  by_cases hlt : i < 12
  · refine hroot 0 (mem_filter.2 ⟨mem_append_left _ ?_, by simpa using h⟩)
    refine mem_map.2 ⟨_, ?_, rfl⟩
    rw [Inode.direct, mem_ofFn]
    exact ⟨⟨i, hlt⟩, rfl⟩
  obtain rfl | rfl | rfl : i = 12 ∨ i = 13 ∨ i = 14 := by omega
  · exact hroot 1 (mem_filter.2 ⟨by simp, by simpa using h⟩)
  · exact hroot 2 (mem_filter.2 ⟨by simp, by simpa using h⟩)
  · exact hroot 3 (mem_filter.2 ⟨by simp, by simpa using h⟩)

variable {inode : Inode}

theorem refs_mem_inner (hb : b ∈ Forest.allInner (kids d) inode.roots) : b ∈ refs d inode :=
  Forest.mem_allNodes.2 (.inl hb)

section Layout
variable (h : Layout fs) {s : Store}

/-- The pointer tree of an inode is the same on the disk and in the store. -/
theorem At.refs_eq (hw : At fs s w) (hdata : ∀ b ∈ refs s.block inode, DataBlock fs b) :
    refs (diskOf fs w.dev) inode = refs s.block inode ∧ dataOf (diskOf fs w.dev) inode =
    dataOf s.block inode := by
  have hsame : ∀ b ∈ refs s.block inode, diskOf fs w.dev b = s.block b :=
    fun b hb => hw.block_eq (hdata b hb)
  exact ⟨(refs_congr fun b hb => hsame b (refs_mem_inner hb)).2, dataOf_congr hsame⟩

include h

theorem readInodeData_at (hw : At fs s w) (hdata : ∀ b ∈ refs s.block inode, DataBlock fs b) :
    readInodeData fs inode w.dev = dataOf s.block inode := by
  obtain ⟨hrefs, hd⟩ := hw.refs_eq hdata
  rw [readInodeData_eq h.blockSize fun b hb => hw.1 b (hdata b (hrefs ▸ hb)).1, hd]

omit h in
theorem isBitmap_meta (hb : IsBitmap fs b) : b ∈ metaBlocks fs := by
  obtain ⟨group, hg, rfl⟩ := hb
  exact mem_append_right _ (mem_flatMap.2 ⟨group, hg, mem_cons_self⟩)

theorem Layout.not_isBitmap (hi : i < fs.groups.length)
    (hx : x ∈ (groupMeta fs (groupAt fs i)).tail) : ¬IsBitmap fs x := by
  rintro ⟨group, hg, rfl⟩
  obtain ⟨j, hj, rfl⟩ := getElem_of_mem hg
  refine h.blockBitmap_ne hj hi hx ?_
  rw [groupAt, getD_eq_getElem _ _ hj]

omit h in
theorem MetaUsed.isProtected (hm : MetaUsed fs s) (hw : At fs s w) :
    Protected fs (diskOf fs w.dev) := by
  intro b hb hfree
  rw [← hw.blockUsed_eq hb] at hfree
  obtain ⟨-, hb⟩ := hm.dataBlock hb hfree
  refine ⟨?_, fun hbm => hb (isBitmap_meta hbm)⟩
  rintro rfl
  exact hb (mem_append_left _ (by simp))

variable {N : List ℕ}

theorem Fresh.took (hf : Fresh fs w N w') (hm : MetaUsed fs s) (hw : At fs s w) :
    At fs (storeOf fs (diskOf fs w'.dev)) w' ∧ Took fs s N (storeOf fs (diskOf fs w'.dev)) := by
  have hfree : ∀ b ∈ N, DataBlock fs b ∧ s.blockUsed b = false := by
    intro b hb
    obtain ⟨hlt, -, hclear⟩ := hf.free b hb
    rw [← hw.blockUsed_eq hlt] at hclear
    exact ⟨hm.dataBlock hlt hclear, hclear⟩
  have hmeta : ∀ i x, i < fs.groups.length → x ∈ (groupMeta fs (groupAt fs i)).tail →
      diskOf fs w'.dev x = diskOf fs w.dev x := by
    intro i x hi hx
    refine hf.other x (fun hN => ?_) (h.not_isBitmap hi hx)
    exact (hfree x hN).1.2 (groupMeta_subset hi (mem_of_mem_tail hx))
  refine ⟨⟨fun b hb => ?_, rfl⟩, hf.nodup, hfree, fun b => ?_, fun b hb => ?_, ?_, ?_⟩
  · have := hw.1 b hb
    rwa [OnDevice, hf.sectorCount]
  · rw [← hw.2]
    by_cases hlt : b < fs.blocksCount
    · simp only [storeOf, hlt, decide_true, Bool.true_and, hf.used]
      congr 1
      rw [Bool.eq_iff_iff]
      simp only [any_eq_true, decide_eq_true_eq]
      constructor
      · rintro ⟨c, hc, hs⟩
        rwa [(h.sameBit_iff hlt (hfree c hc).1.1).1 hs]
      · exact fun hb => ⟨b, hb, rfl, rfl⟩
    · have : b ∉ N := fun hb => hlt (hfree b hb).1.1
      simp [storeOf, hlt, this]
  · rw [← hw.2]
    by_cases hd : DataBlock fs b
    · simp only [storeOf, if_pos hd]
      exact hf.other b hb fun hbm => hd.2 (isBitmap_meta hbm)
    · simp [storeOf, hd]
  · rw [← hw.2]
    funext ino
    by_cases hi : ValidIno fs ino
    · simp only [storeOf, inodeAt, if_pos hi, hmeta _ _ (h.inodeGroup_lt hi) (h.tableBlock_tail ino)]
    · simp [storeOf, hi]
  · rw [← hw.2]
    funext ino
    by_cases hi : ValidIno fs ino
    · simp only [storeOf, inodeUsed, hmeta _ _ (h.inodeGroup_lt hi) (Layout.bitmapOfInode_tail ino)]
    · simp [storeOf, hi]

/-- The inode that the writer returns: its pointer tree is made of the blocks `N`, which hold
the data. -/
structure Wrote (inode : Inode) (data : List UInt8) (N : List ℕ) (s : Store) (inode' : Inode) :
    Prop where
  refs : (refs s.block inode').Perm N
  content : dataOf s.block inode' = .ok data
  record : ∃ now ≤ u32Max, inode' = { inode with
    blocks := inode'.blocks, size := data.length, mtime := now, ctime := now }
  blocks : ∀ i, inode'.blocks i < 2 ^ 32

omit h in
theorem Wrote.fits (hw : Wrote inode data N s inode')
    (hfits : inode.Fits) (hmax : DataFits data) : inode'.Fits := by
  obtain ⟨now, hnow, heq⟩ := hw.record
  have hb := hw.blocks
  have hlt := lt_of_le_u32Max hnow
  have hsize : data.length < 2 ^ 64 := by
    unfold DataFits divCeil maxBlocks at hmax
    omega
  rw [heq]
  exact ⟨hfits.mode, hfits.uid, hfits.gid, hsize, hfits.atime, hlt, hlt, hfits.links, hb⟩

theorem fillInode_does (hm : MetaUsed fs s) (inode : Inode) (data : List UInt8) :
    Does (At fs) (fillInode fs inode data) s fun r s' => ∃ N, Took fs s N s' ∧
      ((∃ inode', r = .ok inode' ∧ Wrote inode data N s' inode' ∧ DataFits data ∧
          (freeSet fs s').card + dataCost data = (freeSet fs s).card) ∨
        (r = Res.err .noSpace ∧ DataFits data ∧ (freeSet fs s).card < dataCost data ∧
          freeSet fs s' = ∅) ∨ (r = Res.err .unsupported ∧ ¬DataFits data ∧ s' = s)) := by
  by_cases hmax : maxBlocks < divCeil data.length 1024
  · rw [fillInode_tooLarge h.blockSize inode hmax]
    exact Does.fail ⟨[], Took.refl fs s, .inr (.inr ⟨rfl, Nat.not_le.2 hmax, rfl⟩)⟩
  rw [Nat.not_lt] at hmax
  intro w hw
  obtain ⟨s', hw', -, huse⟩ := fillInode_uses h inode hmax s hm w hw
  obtain ⟨N, hfresh, hQ⟩ := fillInode_allocs h.blockSize inode data w (hm.isProtected hw)
  obtain ⟨-, htook⟩ := hfresh.took h hm hw
  rw [hw'.2] at htook
  refine ⟨s', hw', N, htook, ?_⟩
  rcases huse with ⟨inode', hr, -, hc⟩ | ⟨hr, hlt, hempty⟩
  · refine .inl ⟨inode', hr, ?_, hmax, hc⟩
    obtain ⟨bs, now, hfilled, hN, hnow, heq⟩ := hQ inode' hr
    have hperm : (refs (diskOf fs (fillInode fs inode data w).2.dev) inode').Perm N :=
      hN ▸ hfilled.refs_perm
    have hdata : ∀ b ∈ refs (diskOf fs (fillInode fs inode data w).2.dev) inode',
        s'.block b = diskOf fs (fillInode fs inode data w).2.dev b :=
      fun b hb => (hw'.block_eq (htook.free b (hperm.mem_iff.1 hb)).1).symm
    have hrefs := (refs_congr fun b hb => hdata b (refs_mem_inner hb)).2
    refine ⟨hrefs ▸ hperm, ?_, ⟨now, hnow, heq⟩, fun i => ?_⟩
    · rw [dataOf_congr hdata, hfilled.dataOf_eq]
    by_cases h0 : inode'.blocks i = 0
    · rw [h0]
      decide
    · exact h.block_lt (htook.free _ (hperm.mem_iff.1 (Inode.block_mem_refs _ _ h0))).1.1
  · exact .inr (.inl ⟨hr, hmax, hlt, hempty⟩)

omit h in
theorem MetaUsed.markAll (hm : MetaUsed fs s) (hN : ∀ b ∈ N, DataBlock fs b) (used : Bool) :
    MetaUsed fs (s.markAll N used) := by
  intro b hb
  rw [← hm b hb]
  exact if_neg fun hbN => (hN b hbN).2 hb

/-- The blocks of the inode are free again before the writer takes new ones, whether it
succeeds or not. -/
theorem writeInodeData_does (hm : MetaUsed fs s) (data : List UInt8)
    (hdata : ∀ b ∈ refs s.block inode, DataBlock fs b) :
    let freed := s.markAll (refs s.block inode) false
    Does (At fs) (writeInodeData fs inode data) s (Either
      (fun inode' s' => ∃ N, Took fs freed N s' ∧ Wrote inode data N s' inode' ∧ DataFits data ∧
        (freeSet fs s').card + dataCost data = (freeSet fs freed).card)
      fun _ s' => ∃ N, Took fs freed N s' ∧
        ((DataFits data ∧ (freeSet fs freed).card < dataCost data ∧ freeSet fs s' = ∅) ∨
        (¬DataFits data ∧ s' = freed))) := by
  refine (freeInodeBlocks_does h hdata).step ?_
  refine (fillInode_does h (hm.markAll hdata false) inode data).mono ?_
  rintro r s' ⟨N, htook, ⟨inode', rfl, hok⟩ | ⟨rfl, hfull⟩ | ⟨rfl, hlarge⟩⟩
  · exact ⟨N, htook, hok⟩
  · exact ⟨N, htook, .inl hfull⟩
  · exact ⟨N, htook, .inr hlarge⟩

end Layout

end Ristux.Ext2
