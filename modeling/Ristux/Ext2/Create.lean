import Ristux.Ext2.Remove

namespace Ristux.Ext2
open Lib Proc List Function Nat Ext2 Store Inode Does DataBlock
variable {kind x p : ℕ} {s s' s₁ : Store} {fs : Ext2Fs} {path c : Str}

theorem kind_or (perm : ℕ) (hkind : kind &&& ext2SIfmt = kind) :
    (kind ||| (perm &&& 0o7777)) &&& ext2SIfmt = kind := by
  rw [and_or_distrib_right, hkind, Nat.and_assoc,
    show (0o7777 : ℕ) &&& ext2SIfmt = 0 by decide, and_zero, or_zero]

theorem kind_or_lt (perm : ℕ) (hkind : kind < 2 ^ 16) : kind ||| (perm &&& 0o7777) < 2 ^ 16 :=
  or_lt_two_pow hkind (lt_of_le_of_lt and_le_right (by decide))

/-- A record that nobody has written to yet. -/
structure Inode.Blank (inode : Inode) : Prop where
  links : inode.links = 1
  size : inode.size = 0
  blocks : ∀ i, inode.blocks i = 0
  fits : inode.Fits

variable {inode : Inode}

theorem Inode.Blank.roots (h : inode.Blank) : inode.roots = [] := by
  rw [Inode.roots, filter_eq_nil_iff]
  intro r hr
  rcases mem_append.1 hr with hr | hr
  · obtain ⟨b, hb, rfl⟩ := mem_map.1 hr
    rw [direct, mem_ofFn] at hb
    obtain ⟨i, rfl⟩ := hb
    simp [h.blocks]
  · simp only [mem_cons, not_mem_nil, or_false] at hr
    rcases hr with rfl | rfl | rfl <;> simp [h.blocks]

theorem Inode.Blank.refs (h : inode.Blank) (d : Disk) : Ext2.refs d inode = [] := by
  rw [Ext2.refs, h.roots]
  rfl

variable {b : ℕ} (uid gid : UInt32)

section Fresh
theorem emptyFile_does (mode : UInt16)
    (hf : ∀ inode : Inode, inode.isFile = true → inode.Blank → Does (At fs) (f inode) s Q) :
    Does (At fs) (emptyFile uid gid mode >>= f) s Q := by
  rw [emptyFile, bind_assoc]
  refine now_does fun now hnow => hf _ ?_ ⟨rfl, rfl, fun _ => rfl, ?_⟩
  · exact decide_eq_true (kind_or _ (by decide))
  have := lt_of_le_u32Max hnow
  exact ⟨kind_or_lt _ (by decide), uid.toNat_lt, gid.toNat_lt, Nat.two_pow_pos 64, this, this,
    this, Nat.one_lt_two_pow (by decide), fun _ => Nat.two_pow_pos 32⟩

theorem emptySymlink_does
    (hf : ∀ inode : Inode, inode.isSymlink = true → inode.Blank → Does (At fs) (f inode) s Q) :
    Does (At fs) (emptySymlink uid gid >>= f) s Q := by
  rw [emptySymlink, bind_assoc]
  refine now_does fun now hnow => hf _ ?_ ⟨rfl, rfl, fun _ => rfl, ?_⟩
  · exact decide_eq_true (kind_or 0o777 (by decide))
  have := lt_of_le_u32Max hnow
  exact ⟨kind_or_lt 0o777 (by decide), uid.toNat_lt, gid.toNat_lt, Nat.two_pow_pos 64, this, this,
    this, Nat.one_lt_two_pow (by decide), fun _ => Nat.two_pow_pos 32⟩

/-- A directory with the single block `b`. -/
structure Inode.DirOn (inode : Inode) (b : ℕ) : Prop where
  isDir : inode.isDir = true
  links : inode.links = 2
  size : inode.size = 1024
  blocks : inode.blocks = fun i => if i = 0 then b else 0
  fits : inode.Fits

theorem emptyDir_does (mode : UInt16) (hb : b < 2 ^ 32)
    (hf : ∀ inode : Inode, inode.DirOn b → Does (At fs) (f inode) s Q) : Does (At fs)
    (emptyDir uid gid mode b >>= f) s Q := by
  rw [emptyDir, bind_assoc]
  refine now_does fun now hnow => hf _ ⟨decide_eq_true (kind_or _ (by decide)), rfl, rfl, rfl, ?_⟩
  have := lt_of_le_u32Max hnow
  refine ⟨kind_or_lt _ (by decide), uid.toNat_lt, gid.toNat_lt,
    show 1024 < 2 ^ 64 by decide, this, this, this, show 2 < 2 ^ 16 by decide, fun i => ?_⟩
  dsimp only
  split_ifs
  · exact hb
  · exact Nat.two_pow_pos 32

theorem incrementLinks_does (inode : Inode) (hfail : Q (Res.err .tooManyLinks) s)
    (hf : ∀ now ≤ u32Max, inode.links + 1 < 2 ^ 16 →
      Does (At fs) (f { inode with links := inode.links + 1, ctime := now }) s Q) : Does (At fs)
    (incrementLinks inode >>= f) s Q := by
  unfold incrementLinks
  by_cases hmax : inode.links + 1 > 65535
  · rw [if_pos hmax]
    exact fail hfail
  · rw [if_neg hmax, bind_assoc]
    exact now_does fun now hnow => hf now hnow (by omega)

end Fresh

theorem Inode.DirOn.dataBlocks (h : inode.DirOn b) (hb : b ≠ 0) (d : Disk) :
    dataBlocks d inode = [b] := by
  rw [dataBlocks_eq, direct, h.blocks]
  simp [treeOr, hb, ofFn_succ]

theorem Inode.DirOn.refs (h : inode.DirOn b) (hb : b ≠ 0) (d : Disk) : refs d inode = [b] := by
  rw [refs_eq, direct, h.blocks]
  simp [treeOr, hb, ofFn_succ]

/-- The name `c` in directory `p` is new, and so is the inode `x` it stands for; `s₁` is the
store right before the name is added. -/
structure Creates (fs : Ext2Fs) (s : Store) (path : Str) (p : ℕ) (c : Str) (x : ℕ)
    (s₁ s' : Store) : Prop where
  parent : (treeOf fs s).Parent path p c
  ordinary : Ordinary fs x
  unused : s.inodeUsed x = false
  grown : Grown s s₁
  bits : s₁.inodeUsed = update s.inodeUsed x true
  added : Added s₁ p ⟨x, asBytes c⟩ s'

/-- Freeing what was taken leaves nothing behind. -/
theorem idle_of_freed (hx : s.inodeUsed x = false) (hN : ∀ b ∈ N, s.blockUsed b = false)
    (hg : Grown s s') (hbits : s'.inodeUsed = update s.inodeUsed x true)
    (hblocks : ∀ b, b ∉ N → s'.blockUsed b = s.blockUsed b) :
    Idle s ((s'.markAll N false).setInodeUsed x false) := by
  have heq : ((s'.markAll N false).setInodeUsed x false).inodeUsed = s.inodeUsed := by
    change update s'.inodeUsed x false = _
    rw [hbits, update_idem, ← hx, update_eq_self]
  have hbeq : ((s'.markAll N false).setInodeUsed x false).blockUsed = s.blockUsed := by
    funext b
    change (if b ∈ N then false else s'.blockUsed b) = _
    split_ifs with hb
    · exact (hN b hb).symm
    · exact hblocks b hb
  exact ⟨⟨fun i hi => by rw [heq, hi], fun b hb => by rw [hbeq, hb], hg.inode, hg.block⟩, heq, hbeq⟩

theorem idle_of_freed_inode (hx : s.inodeUsed x = false) (hg : Grown s s')
    (hbits : s'.inodeUsed = update s.inodeUsed x true)
    (hblocks : s'.blockUsed = s.blockUsed) : Idle s (s'.setInodeUsed x false) := by
  have := idle_of_freed (N := []) hx (by simp) hg hbits fun b _ => by rw [hblocks]
  simpa [markAll] using this

/-- The store with a new empty directory `x` that has no name yet. -/
def newDir (s : Store) (x b p : ℕ) (inode : Inode) : Store :=
  (((s.setInodeUsed x true).setBlockUsed b true).setBlock b (dotsBlock x p)).setInode x inode

theorem grown_newDir (hx : s.inodeUsed x = false) (hb : s.blockUsed b = false) :
    Grown s (newDir s x b p inode) := by
  have hblock : Grown s ((s.setBlockUsed b true).setBlock b (dotsBlock x p)) :=
    (grown_setBlock hb).trans (grown_setBlockUsed b)
  have hinode : Grown s ((s.setInodeUsed x true).setInode x inode) :=
    (grown_setInodeUsed x).setInode hx inode
  exact ⟨hinode.inodeUsed, hblock.blockUsed, hinode.inode, hblock.block⟩

theorem writeDirBlock_does (h : Layout fs) (hb : DataBlock fs b) (x p : ℕ) :
    Does (At fs) (writeDirBlock fs b x p) s (Ends () (s.setBlock b (dotsBlock x p))) :=
    by
  rw [writeDirBlock, h.blockSize]
  exact writeBlock_does h hb le_rfl _

section Create
variable (h : Layout fs) (hs : Sound fs s)
include h hs

theorem createFile_does (path : Str) (uid gid : UInt32) (mode : UInt16) :
    Does (At fs) (createFile fs path uid gid mode) s (Either
      (fun _ s' => (treeOf fs s).lookup true path = none ∧ ∃ p c x inode,
        inode.isFile = true ∧ inode.Blank ∧
        Creates fs s path p c x ((s.setInodeUsed x true).setInode x inode) s')
      fun _ s' => Idle s s') := by
  have hidle := Idle.refl s
  refine absent_does h hs.node true (fun _ => hidle) fun hl => ?_
  refine split_does (fun _ _ => hidle) fun ps c habs hparts => ?_
  refine parent_does h hs.node habs hparts (fun _ _ hnot => if_pos (by simp [hnot]))
    (fun _ _ => hidle) fun p hparent hdir => ?_
  dsimp only
  rw [if_neg (by simp [hdir])]
  refine allocateInode_bind h (fun _ => hidle) fun x hord hfree => ?_
  have hx := hord.1
  refine emptyFile_does uid gid mode fun inode hfile hblank => ?_
  refine (writeInode_does h hx hblank.fits).step ?_
  rw [stored_of_isFile hfile]
  have hg : Grown s ((s.setInodeUsed x true).setInode x inode) :=
    (grown_setInodeUsed x).setInode hfree inode
  refine (hg.insertDirEntry_does h hs hparent rfl hx _).attempt_either ?_ ?_
  · intro _ s' hadd
    exact pure ⟨hl, p, c, x, inode, hfile, hblank, hparent, hord, hfree, hg, rfl, hadd⟩
  rintro e s' rfl
  exact (freeInode_does h hx).ignore_step
    (fail (idle_of_freed_inode hfree hg rfl rfl))

theorem createDir_does (path : Str) (uid gid : UInt32) (mode : UInt16) :
    Does (At fs) (createDir fs path uid gid mode) s (Either
      (fun _ s' => (treeOf fs s).lookup true path = none ∧ ∃ p c x b inode s₂ now,
        DataBlock fs b ∧ s.blockUsed b = false ∧ inode.DirOn b ∧
        Creates fs s path p c x (newDir s x b p inode) s₂ ∧
        s' = s₂.setInode p { s.inode p with links := (s.inode p).links + 1, ctime := now })
      fun _ s' => Idle s s') := by
  have hidle := Idle.refl s
  refine assume (fun w hw => hw.inode_read) fun hread => ?_
  refine absent_does h hs.node true (fun _ => hidle) fun hl => ?_
  refine split_does (fun _ _ => hidle) fun ps c habs hparts => ?_
  refine parent_does h hs.node habs hparts (fun _ _ hnot => if_pos (by simp [hnot]))
    (fun _ _ => hidle) fun p hparent hdir => ?_
  dsimp only
  rw [if_neg (by simp [hdir])]
  refine incrementLinks_does _ hidle fun now hnow hlinks => ?_
  refine allocateInode_bind h (fun _ => hidle) fun x hord hfree => ?_
  have hx := hord.1
  refine allocateBlock_attempt h ?_ fun b hlt hbfree => ?_
  · exact (freeInode_does h hx).ignore_step
      (fail (idle_of_freed_inode hfree (grown_setInodeUsed x) rfl rfl))
  have hb : DataBlock fs b := hs.metaUsed.dataBlock hlt hbfree
  refine (writeDirBlock_does h hb x p).attempt_step ?_
  refine emptyDir_does uid gid mode (h.block_lt hlt) fun inode hon => ?_
  refine (writeInode_does h hx hon.fits).attempt_step ?_
  rw [stored_of_lt (hon.size ▸ by decide)]
  have hg : Grown s (newDir s x b p inode) := grown_newDir hfree hbfree
  refine (hg.insertDirEntry_does h hs hparent rfl hx _).attempt_either ?_ ?_
  · intro _ s₂ hadd
    refine (relink_does h (hs.node p hparent.reach).valid (hread p) hlinks
      (lt_of_le_u32Max hnow)).mono ?_
    rintro r s' ⟨rfl, rfl⟩
    exact ⟨hl, p, c, x, b, inode, s₂, now, hb, hbfree, hon, ⟨hparent, hord, hfree, hg, rfl, hadd⟩,
      rfl⟩
  rintro e s₂ rfl
  have hrefs : refs (newDir s x b p inode).block inode = [b] := hon.refs (ne_zero hb) _
  refine (freeInodeBlocks_does h (hrefs ▸ by simpa using hb)).ignore_step ?_
  rw [hrefs]
  refine (freeInode_does h hx).ignore_step (fail (idle_of_freed hfree ?_ hg rfl ?_))
  · simpa using hbfree
  · exact fun c hc => Function.update_of_ne (by simpa using hc) _ _

end Create

/-- `symlink` gets as far as writing the target, and runs out of space there. -/
structure SymlinkStarves (fs : Ext2Fs) (s : Store) (target linkPath : Str) : Prop where
  new : (treeOf fs s).lookup false linkPath = none
  parent : ∃ p c, (treeOf fs s).Parent linkPath p c
  inode : ∃ x, Ordinary fs x ∧ s.inodeUsed x = false
  fits : DataFits (asBytes target)
  space : 0 < (freeSet fs s).card
  short : (freeSet fs s).card < dataCost (asBytes target)

theorem Took.idle (h : Took fs s [] s') : Idle s s' where
  toGrown := h.grown
  inodeBits := h.inodeUsed
  blockBits := funext fun b => by simpa using h.used b

theorem Took.eq_nil (h : Took fs s N s') (hfull : (freeSet fs s).card = 0) : N = [] := by
  refine eq_nil_iff_forall_not_mem.2 fun b hb => ?_
  obtain ⟨hd, hfree⟩ := h.free b hb
  have := mem_freeSet.2 ⟨hd.1, hfree⟩
  rw [Finset.card_eq_zero.1 hfull] at this
  simp at this

/-- The inode bit that was set for the time of the write is cleared again. -/
theorem Took.untake (hx : s.inodeUsed x = false) (h : Took fs (s.setInodeUsed x true) N s') :
    Took fs s N (s'.setInodeUsed x false) where
  nodup := h.nodup
  free := h.free
  used := h.used
  block := h.block
  inode := h.inode
  inodeUsed := by
    rw [setInodeUsed, h.inodeUsed]
    change update (update s.inodeUsed x true) x false = _
    rw [update_idem, ← hx, update_eq_self]

theorem writeInodeData_blank (h : Layout fs) (hm : MetaUsed fs s) (hblank : inode.Blank)
    (data : List UInt8) : Does (At fs)
    (writeInodeData fs inode data) s (Either (fun inode' s' => ∃ N, Took fs s N s' ∧
      Wrote inode data N s' inode' ∧ DataFits data ∧ (freeSet fs s').card + dataCost data =
      (freeSet fs s).card) fun _ s' => ∃ N, Took fs s N s' ∧
      ((DataFits data ∧ (freeSet fs s).card < dataCost data ∧ freeSet fs s' = ∅) ∨
      (¬DataFits data ∧ s' = s))) := by
  have hrefs := hblank.refs s.block
  have hdata : ∀ b ∈ refs s.block inode, DataBlock fs b := by simp [hrefs]
  have := writeInodeData_does h hm data hdata
  rwa [hrefs, markAll_nil] at this

theorem symlink_does (h : Layout fs) (hs : Sound fs s) (target linkPath : Str) (uid gid : UInt32) :
    Does (At fs) (symlink fs target linkPath uid gid) s (Either
      (fun _ s' => (treeOf fs s).lookup false linkPath = none ∧
        dataCost (asBytes target) ≤ (freeSet fs s).card ∧ ∃ p c x inode inode' N s₁,
        inode.isSymlink = true ∧ inode.Blank ∧ Took fs (s.setInodeUsed x true) N s₁ ∧
        Wrote inode (asBytes target) N s₁ inode' ∧
        Creates fs s linkPath p c x (s₁.setInode x inode'.stored) s')
      fun _ s' => (Idle s s' ∧ ¬SymlinkStarves fs s target linkPath) ∨
        (SymlinkStarves fs s target linkPath ∧ ∃ N, Took fs s N s' ∧ freeSet fs s' = ∅)) := by
  have hidle := Idle.refl s
  refine absent_does h hs.node false (fun hno => .inl ⟨hidle, fun hst => hno hst.new⟩) fun hl => ?_
  have hno : (∀ p c, ¬(treeOf fs s).Parent linkPath p c) → ¬SymlinkStarves fs s target linkPath := by
    intro hno hst
    obtain ⟨p, c, hp⟩ := hst.parent
    exact hno p c hp
  refine split_does (fun h _ => .inl ⟨hidle, hno h⟩) fun ps c habs hparts => ?_
  refine parent_does h hs.node habs hparts (fun _ _ hnot => if_pos (by simp [hnot]))
    (fun h _ => .inl ⟨hidle, hno h⟩) fun p hparent hdir => ?_
  dsimp only
  rw [if_neg (by simp [hdir])]
  refine allocateInode_bind h (fun hall => .inl ⟨hidle, fun hst => ?_⟩) fun x hord hfree => ?_
  · obtain ⟨x, hx, hfree⟩ := hst.inode
    rw [hall x hx] at hfree
    cases hfree
  have hx := hord.1
  refine emptySymlink_does uid gid fun inode hlink hblank => ?_
  have hm : MetaUsed fs (s.setInodeUsed x true) := hs.metaUsed
  refine (writeInodeData_blank h hm hblank (asBytes target)).attempt_either ?_ ?_
  · rintro inode' s₁ ⟨N, htook, hwrote, hmax, hcard⟩
    have hfits := hwrote.fits hblank.fits hmax
    have hg : Grown s (s₁.setInode x inode'.stored) :=
      ((grown_setInodeUsed x).trans htook.grown).setInode hfree _
    have hN : ∀ b ∈ refs s₁.block inode', DataBlock fs b ∧ s.blockUsed b = false :=
      fun b hb => htook.free b (hwrote.refs.mem_iff.1 hb)
    refine (writeInode_does h hx hfits).attempt_step ?_
    refine (hg.insertDirEntry_does h hs hparent rfl hx _).attempt_either ?_ ?_
    · intro _ s₂ hadd
      refine pure ⟨hl, le.intro ((add_comm _ _).trans hcard), p, c, x, inode,
        inode', N, s₁, hlink, hblank, htook, hwrote, hparent, hord, hfree, hg, ?_, hadd⟩
      exact htook.inodeUsed
    rintro e s₂ rfl
    refine (freeInodeBlocks_does h (s := s₁.setInode x inode'.stored)
      fun b hb => (hN b hb).1).ignore_step ?_
    refine (freeInode_does h hx).ignore_step (fail (.inl ⟨?_, fun hst => ?_⟩))
    · refine idle_of_freed hfree (fun b hb => (hN b hb).2) hg htook.inodeUsed fun b hb => ?_
      have hb' : b ∉ N := fun hbN => hb (hwrote.refs.mem_iff.2 hbN)
      exact (htook.used b).trans (by simp [hb'])
    have hcard' : _ + dataCost (asBytes target) = (freeSet fs s).card := hcard
    have := hst.short
    omega
  rintro e s₁ ⟨N, htook, hout⟩
  refine (freeInode_does h hx).ignore_step (fail ?_)
  have htook' := htook.untake hfree
  rcases hout with ⟨hmax, hshort, hfull⟩ | ⟨hmax, rfl⟩
  · by_cases h0 : (freeSet fs s).card = 0
    · obtain rfl := htook'.eq_nil h0
      exact .inl ⟨htook'.idle, fun hst => absurd h0 hst.space.ne'⟩
    · exact .inr ⟨⟨hl, ⟨p, c, hparent⟩, ⟨x, hord, hfree⟩, hmax, pos_of_ne_zero h0,
        hshort⟩, N, htook', hfull⟩
  · refine .inl ⟨?_, fun hst => hmax hst.fits⟩
    exact idle_of_freed_inode hfree (grown_setInodeUsed x) rfl rfl

theorem link_does (h : Layout fs) (hs : Sound fs s) (oldPath newPath : Str) :
    Does (At fs) (link fs oldPath newPath) s (Either
      (fun _ s' => (treeOf fs s).lookup false newPath = none ∧ ∃ i p c s₁ now,
        (treeOf fs s).lookup true oldPath = some i ∧ (s.inode i).isFile = true ∧
        (treeOf fs s).Parent newPath p c ∧ Added s p ⟨i, asBytes c⟩ s₁ ∧
        s' = s₁.setInode i { s.inode i with links := (s.inode i).links + 1, ctime := now })
      fun _ s' => s' = s) := by
  refine assume (fun w hw => hw.inode_read) fun hread => ?_
  refine absent_does h hs.node false (fun _ => rfl) fun hl => ?_
  refine lookup_does h hs.node true (fun _ _ => rfl) fun i hi => ?_
  dsimp only
  by_cases hfile : (s.inode i).isFile = true
  · rw [if_neg (by simp [hfile])]
    refine incrementLinks_does _ rfl fun now hnow hlinks => ?_
    refine split_does (fun _ _ => rfl) fun ps c habs hparts => ?_
    refine parent_does h hs.node habs hparts (fun _ _ hnot => if_pos (by simp [hnot]))
      (fun _ _ => rfl) fun p hparent hdir => ?_
    have hvalid := (hs.node i (Tree.lookup_reach hi)).valid
    rw [if_neg (by simp [hdir])]
    refine ((Grown.refl s).insertDirEntry_does h hs hparent rfl hvalid _).bind_either ?_ ?_
    · intro _ s₁ hadd
      refine (relink_does h hvalid (hread i) hlinks (lt_of_le_u32Max hnow)).mono ?_
      rintro r s' ⟨rfl, rfl⟩
      exact ⟨hl, i, p, c, s₁, now, hi, hfile, hparent, hadd, rfl⟩
    · rintro e s' rfl
      rfl
  · rw [if_pos (by simp [hfile])]
    exact fail rfl

theorem Sound.not_reach_of_unused (hs : Sound fs s) (hx : s.inodeUsed x = false) :
    ¬(treeOf fs s).Reach x := by
  intro hr
  rw [(hs.node x hr).used] at hx
  cases hx

theorem node_entries_of_not_dir (h : (s.inode x).isDir = false) : (s.node x).entries = [] := by
  simp [node, h]

/-- Naming an inode of the tree once more. -/
theorem Sound.linkable (hs : Sound fs s) (ho : (treeOf fs s).Reach o)
    (hdir : (s.inode o).isDir = true → ∀ e ∈ (s.node o).entries, e.name = asBytes dotDot →
      e.ino = p) : Linkable fs s p o where
  dotDot e he hname := by
    by_cases hd : (s.inode o).isDir = true
    · exact hdir hd e he hname
    · rw [node_entries_of_not_dir (by simpa using hd)] at he
      cases he
  node := hs.node o ho
  disjoint j hj hjo := hs.disjoint o j ho hj (Ne.symm hjo)
  below hno := absurd ho hno
  dotSelf := hs.dotSelf o ho

/-- The last steps of `link`. -/
theorem Added.link_sound (hs : Sound fs s) (h : Added s p ⟨i, asBytes c⟩ s₁)
    (hp : (treeOf fs s).Parent path p c)
    (hi : (treeOf fs s).Reach i) (hfile : (s.inode i).isFile = true) :
    Sound fs (s₁.setInode i { s.inode i with links := (s.inode i).links + 1, ctime := now }) := by
  have hnot := isDir_of_kind (.inl hfile)
  have hroot := hs.ne_root hnot
  have hlink : Linkable fs s p i :=
    hs.linkable hi fun hdir => Bool.noConfusion (hnot.symm.trans hdir)
  have hs₁ := h.soundUpTo hs hp.reach hp.dir (hp.not_dots i) hlink
  have hin : s₁.inode = s.inode := by
    obtain ⟨A, B, -, hr⟩ := h
    exact hr.inode
  have hshape : SameShape
      { s.inode i with links := (s.inode i).links + 1, ctime := now } (s₁.inode i) := by
    rw [hin]
    exact ⟨rfl, rfl, rfl⟩
  refine ((frame_setInode hs₁ hshape).soundUpTo hs₁).rebound fun j _ => ?_
  by_cases hji : j = i
  · subst hji
    have hself := setInode_self s₁ j
      { s.inode j with links := (s.inode j).links + 1, ctime := now }
    rw [nameBound_of_not_dir hroot hnot, nameBound_of_not_dir hroot (by rw [hself]; exact hnot),
      hself, if_pos rfl]
  · rw [if_neg hji]
    exact (nameBound_congr ((setInode_of_ne _ _ hji).trans (congrFun hin j))).ge

/-- The new inode is well formed, its blocks are new and it has no entries but the dots. -/
structure NewNode (fs : Ext2Fs) (s : Store) (p x : ℕ) (s₁ : Store) : Prop where
  node : NodeOk fs s₁ x
  refs : ∀ b ∈ s₁.refs x, s.blockUsed b = false
  entries : ∀ e ∈ (s₁.node x).entries, e = ⟨x, asBytes dot⟩ ∨ e = ⟨p, asBytes dotDot⟩
  named : (s₁.inode x).isDir = true ∨ 1 ≤ (s₁.inode x).links

theorem Creates.sound (hs : Sound fs s) (hc : Creates fs s path p c x s₁ s')
    (hn : NewNode fs s p x s₁) : Sound fs s' := by
  have hnew := hs.not_reach_of_unused hc.unused
  have hframe := hc.grown.frame hs
  have hreach : ∀ {j}, (treeOf fs s₁).Reach j ↔ (treeOf fs s).Reach j := hframe.sameTree.reach_iff
  have hs₁ := hframe.soundUpTo hs
  have hzero : SoundUpTo fs (fun j => if j = x then 0 else nameBound fs s j) s₁ := by
    refine hs₁.rebound fun j hj => ?_
    have hjx : j ≠ x := fun hjx => hnew (hreach.1 (hjx ▸ hj))
    rw [if_neg hjx]
  have hinode : ∀ j, (treeOf fs s).Reach j → s₁.inode j = s.inode j :=
    fun j hj => hc.grown.inode j (hs.node j hj).used
  have hp := hc.parent.reach
  have hdir : (s₁.inode p).isDir = true := by
    rw [hinode p hp]
    exact hc.parent.dir
  have hdots : asBytes dot ≠ asBytes dotDot := by decide
  have hlink : Linkable fs s₁ p x := by
    refine ⟨fun e he hname => ?_, hn.node, fun j hj _ b hb hbj => ?_, fun _ => ?_,
      fun e he hname => ?_⟩
    · rcases hn.entries e he with rfl | rfl
      · exact absurd hname hdots
      · rfl
    · have hj' := hreach.1 hj
      rw [(hframe.same j hj').refs] at hbj
      have := ((hs.node j hj').refs b hbj).2
      rw [hn.refs b hb] at this
      cases this
    · rw [Tree.succ, Node.real, filter_eq_nil_iff.2, map_nil, ite_self]
      intro e he
      rcases hn.entries e he with rfl | rfl <;> simp [RawEntry.Dots]
    · rcases hn.entries e he with rfl | rfl
      · rfl
      · exact absurd hname.symm hdots
  have hadd := hc.added.soundUpTo hzero (hreach.2 hp) hdir (hc.parent.not_dots x) hlink
  have hin : s'.inode = s₁.inode := by
    obtain ⟨A, B, -, hr⟩ := hc.added
    exact hr.inode
  refine hadd.rebound fun j hj => ?_
  by_cases hjx : j = x
  · subst hjx
    have hroot : j ≠ fs.rootIno := fun heq => hnew (heq ▸ reach_rootIno)
    rw [if_pos rfl, if_pos rfl, nameBound, if_neg hroot, hin]
    split_ifs with hd
    · exact le_rfl
    · exact (hn.named.resolve_left hd)
  · have hj' := (hc.added.reach_iff hzero (hreach.2 hp) hdir (hc.parent.not_dots x) hlink).1 hj
    have hold := hreach.1 (hj'.resolve_right hjx)
    rw [if_neg hjx, if_neg hjx]
    exact (nameBound_congr ((congrFun hin j).trans (hinode j hold))).ge

section NewNode
theorem newNode_file (hx : Ordinary fs x) (hfile : inode.isFile = true) (hblank : inode.Blank) :
    NewNode fs s p x ((s.setInodeUsed x true).setInode x inode) := by
  have hself := setInode_self (s.setInodeUsed x true) x inode
  have hnot : (((s.setInodeUsed x true).setInode x inode).inode x).isDir = false := by
    rw [hself]
    exact isDir_of_kind (.inl hfile)
  have hrefs : ((s.setInodeUsed x true).setInode x inode).refs x = [] := by
    rw [Store.refs, hself]
    exact hblank.refs _
  refine ⟨⟨hx.1, setInodeUsed_self _ _ _, ?_, ?_, ?_⟩, ?_, ?_, .inr ?_⟩
  · simp [hrefs]
  · simp [hrefs]
  · exact fun hdir => Bool.noConfusion (hnot.symm.trans hdir)
  · simp [hrefs]
  · simp [node_entries_of_not_dir hnot]
  · rw [hself, hblank.links]

theorem newNode_symlink (hx : Ordinary fs x) (hlink : inode.isSymlink = true)
    (hblank : inode.Blank) (htook : Took fs (s.setInodeUsed x true) N s₁)
    (hwrote : Wrote inode data N s₁ inode') :
    NewNode fs s p x (s₁.setInode x inode'.stored) := by
  have hself := setInode_self s₁ x inode'.stored
  obtain ⟨now, -, hrecord⟩ := hwrote.record
  have hlink' : inode'.stored.isSymlink = true := by
    rw [hrecord]
    exact hlink
  have hnot : ((s₁.setInode x inode'.stored).inode x).isDir = false := by
    rw [hself]
    exact isDir_of_kind (.inr hlink')
  have hrefs : ((s₁.setInode x inode'.stored).refs x).Perm N := by
    rw [Store.refs, hself]
    exact hwrote.refs
  refine ⟨⟨hx.1, ?_, fun b hb => ?_, hrefs.nodup_iff.2 htook.nodup, ?_⟩, fun b hb => ?_, ?_,
    .inr ?_⟩
  · exact (congrFun htook.inodeUsed x).trans (setInodeUsed_self _ _ _)
  · have hbN := hrefs.mem_iff.1 hb
    exact ⟨(htook.free b hbN).1, (htook.used b).trans (by simp [hbN])⟩
  · exact fun hdir => Bool.noConfusion (hnot.symm.trans hdir)
  · exact (htook.free b (hrefs.mem_iff.1 hb)).2
  · simp [node_entries_of_not_dir hnot]
  · rw [hself, hrecord]
    exact hblank.links.ge

theorem newNode_dir (h : Layout fs) (hx : Ordinary fs x) (hp : ValidIno fs p) (hb : DataBlock fs b)
    (hfree : s.blockUsed b = false) (hon : inode.DirOn b) :
    NewNode fs s p x (newDir s x b p inode) := by
  have hself : (newDir s x b p inode).inode x = inode := setInode_self _ _ _
  have hblock : (newDir s x b p inode).block b = dotsBlock x p := setBlock_self _ _ _
  have hchain := chain_dotsBlock (h.ino_lt hx.1) (h.ino_lt hp)
  have hrec := records_eq hchain
  have hrefs : (newDir s x b p inode).refs x = [b] := by
    rw [Store.refs, hself]
    exact hon.refs (ne_zero hb) _
  have hdata : dataBlocks (newDir s x b p inode).block inode = [b] :=
    hon.dataBlocks (ne_zero hb) _
  have hfirst : inode.blocks 0 = b := by rw [hon.blocks]; rfl
  have hdir : ((newDir s x b p inode).inode x).isDir = true := by
    rw [hself]
    exact hon.isDir
  refine ⟨⟨hx.1, setInodeUsed_self _ _ _, ?_, ?_, fun _ => ?_⟩, ?_, fun e he => ?_, .inl hdir⟩
  · rw [hrefs]
    simpa using ⟨hb, setBlockUsed_self _ _ _⟩
  · simp [hrefs]
  · rw [hself]
    refine ⟨?_, ?_, ?_, ?_, ?_⟩
    · rw [hfirst]
      exact ne_zero hb
    · rw [hdata, hon.size]
      rfl
    · rw [hon.size]
      decide
    · rw [hdata]
      simp only [mem_singleton, forall_eq, hblock, Tiled, hrec]
      exact hchain
    · rw [hfirst, hblock, hrec]
      rfl
  · rw [hrefs]
    simpa using hfree
  have hentries : ((newDir s x b p inode).node x).entries = liveEntries
    (records (dotsBlock x p)) := by
    rw [node, hself]
    simp only [hon.isDir, if_true, dirEntries, hdata, flatMap_cons, flatMap_nil,
      append_nil, hblock]
  rw [hentries, hrec] at he
  obtain ⟨r, hr, -, rfl⟩ := mem_liveEntries.1 he
  simp only [mem_cons, not_mem_nil, or_false] at hr
  rcases hr with rfl | rfl
  · exact .inl rfl
  · exact .inr rfl

end NewNode

end Ristux.Ext2
