import Ristux.Ext2.OpRules

namespace Ristux.Ext2
open Lib Proc List Nat Store Does
variable {i p : ℕ} {fs : Ext2Fs} {s : Store} {c path : Str}

variable {inode : Inode}

section Frames
variable (hs : SoundUpTo fs bound s)
include hs

theorem frame_setInode (hshape : inode.SameShape (s.inode i)) : Frame fs s (s.setInode i inode) where
  same j _ := by
    refine ⟨?_, fun _ _ => rfl⟩
    by_cases hji : j = i
    · subst hji
      rw [setInode_self]
      exact hshape
    · rw [setInode_of_ne _ _ hji]
      exact Inode.SameShape.refl _
  used j hj := (hs.node j hj).used
  blocks j hj b hb := ((hs.node j hj).refs b hb).2
  metaUsed := hs.metaUsed

omit hs in
theorem Sound.setInode_dir (hs : Sound fs s) (hdir : (s.inode i).isDir = true)
    (hshape : inode.SameShape (s.inode i)) : Sound fs (s.setInode i inode) := by
  refine ((frame_setInode hs hshape).soundUpTo hs).rebound fun j _ => ?_
  by_cases hji : j = i
  · subst hji
    rw [nameBound_of_dir hdir, nameBound_of_dir (by rw [setInode_self, hshape.isDir, hdir])]
  · exact (nameBound_congr (setInode_of_ne _ _ hji)).ge

/-- Blocks that no reachable inode owns may be freed, with an inode that has no name. -/
theorem frame_free (hi : ¬(treeOf fs s).Reach i) (hN : ∀ b ∈ N, DataBlock fs b)
    (hown : ∀ j, (treeOf fs s).Reach j → List.Disjoint N (s.refs j)) :
    Frame fs s ((s.markAll N false).setInodeUsed i false) where
  same _ _ := ⟨Inode.SameShape.refl _, fun _ _ => rfl⟩
  used j hj := by
    have hji : j ≠ i := fun hji => hi (hji ▸ hj)
    refine (Function.update_of_ne hji _ _).trans ?_
    exact (hs.node j hj).used
  blocks j hj b hb := (if_neg fun hbN => hown j hj hbN hb).trans ((hs.node j hj).refs b hb).2
  metaUsed := hs.metaUsed.markAll hN false

/-- An inode without names cannot be reached. -/
theorem SoundUpTo.not_reach (hi : i ≠ fs.rootIno) (hcount : nameCount fs s i = 0) :
    ¬(treeOf fs s).Reach i := by
  intro hr
  refine (Rooted.indegree_pos (fun a ha => ?_) hr hi).ne' hcount
  exact Finset.mem_range.2 (lt_succ_of_le (hs.node a ha).valid.2)

end Frames

theorem Tree.find_eq (hc : Plain c) : (treeOf fs s).find p c =
      (((s.node p).entries.find? fun e => e.name = asBytes c).map RawEntry.ino) := by
  rw [Tree.find, Node.real, find_real _ hc]
  rfl

section Found
variable (hok : NodeOk fs s p) (hdir : (s.inode p).isDir = true) (hc : Plain c)
include hok hdir hc

/-- Removal takes the entry that lookup finds. -/
theorem Removed.find_eq (h : Removed s p ⟨x, asBytes c⟩ s') : (treeOf fs s).find p c = some x := by
  obtain ⟨A, B, hfirst, hA, -⟩ := h
  rw [Tree.find_eq hc, entries_eq hok hdir, hfirst, append_assoc, find?_append,
    find?_eq_none.2 (by simpa using hA)]
  simp

omit hc in
theorem mem_firstEntries_of_find (hfind : (treeOf fs s).find p c = some x)
    (hrest : ∀ e ∈ s.restEntries p, e.name ≠ asBytes c) : ⟨x, asBytes c⟩ ∈ s.firstEntries p := by
  have hmem := Tree.find_mem hfind
  have hmem' : ⟨x, asBytes c⟩ ∈ (s.node p).entries := (mem_filter.1 hmem).1
  rw [entries_eq hok hdir, mem_append] at hmem'
  exact hmem'.resolve_right fun hr => hrest _ hr rfl

end Found

/-- `unlink path` can remove the entry: it names a file or symbolic link `i` and it is in the
first block of its directory. -/
structure Unlinkable (fs : Ext2Fs) (s : Store) (path : Str) (p : ℕ) (c : Str) (i : ℕ) : Prop where
  parent : (treeOf fs s).Parent path p c
  find : (treeOf fs s).find p c = some i
  kind : (s.inode i).isFile = true ∨ (s.inode i).isSymlink = true
  first : ∃ e ∈ s.firstEntries p, e.name = asBytes c

theorem Unlinkable.lookup (h : Unlinkable fs s path p c i) :
    (treeOf fs s).lookup false path = some i := by
  rw [h.parent.lookup, h.find]

/-- An inode has lost a name: it keeps the others, or goes away with its blocks. -/
def Unnamed (s₁ : Store) (i : ℕ) (s' : Store) : Prop :=
  ((s₁.inode i).links > 1 ∧ ∃ now, s' = s₁.setInode i
    { s₁.inode i with links := (s₁.inode i).links - 1, ctime := now }) ∨
  ((s₁.inode i).links ≤ 1 ∧ s' = (s₁.markAll (s₁.refs i) false).setInodeUsed i false)

/-- The entry `c` of directory `p`, which named `i`, has been unlinked. -/
def Unlinked (s : Store) (p : ℕ) (c : Str) (i : ℕ) (s' : Store) : Prop :=
  ∃ s₁, Removed s p ⟨i, asBytes c⟩ s₁ ∧ Room s₁ p (asBytes c) ∧ Unnamed s₁ i s'

theorem isDir_of_kind (h : inode.isFile = true ∨ inode.isSymlink = true) : inode.isDir = false := by
  simp only [Inode.isFile, Inode.isSymlink, Inode.isDir, decide_eq_true_eq, decide_eq_false_iff_not]
    at h ⊢
  rcases h with h | h <;> rw [h] <;> decide

theorem unname_does (h : Layout fs) (hok : NodeOk fs s i)
    (hread : (s.inode i).Fits ∧ (s.inode i).stored = s.inode i) :
    Does (At fs) (if (s.inode i).links > 1 then do
        let now ← currentExt2Time
        writeInode fs i { s.inode i with links := (s.inode i).links - 1, ctime := now }
      else do
        freeInodeBlocks fs (s.inode i)
        freeInode fs i) s (Either (fun _ s' => Unnamed s i s') fun _ _ => False) := by
  have hlinks := hread.1.links
  split_ifs with hl
  · refine now_does fun now hnow => ?_
    refine (relink_does h hok.valid hread (by omega) (lt_of_le_u32Max hnow)).mono ?_
    rintro r s' ⟨rfl, rfl⟩
    exact .inl ⟨hl, now, rfl⟩
  refine (freeInodeBlocks_does h fun b hb => (hok.refs b hb).1).step ?_
  refine (freeInode_does h hok.valid).mono ?_
  rintro r s' ⟨rfl, rfl⟩
  exact .inr ⟨Nat.not_lt.1 hl, rfl⟩

theorem unlink_does (h : Layout fs) (hs : Sound fs s) (path : Str) :
    Does (At fs) (unlink fs path) s (Either
      (fun _ s' => ∃ p c i, Unlinkable fs s path p c i ∧ Unlinked s p c i s')
      fun _ s' => s' = s ∧ ∀ p c i, ¬Unlinkable fs s path p c i) := by
  refine assume (fun w hw => hw.inode_read) fun hread => ?_
  refine split_does (fun hno _ => ⟨rfl, fun p c i hu => hno p c hu.parent⟩)
    fun ps c habs hparts => ?_
  refine lookup_does h hs.node false (fun hno _ => ⟨rfl, fun p c i hu => ?_⟩) fun i hi => ?_
  · rw [hu.lookup] at hno
    cases hno
  dsimp only
  by_cases hkind : (s.inode i).isFile = true ∨ (s.inode i).isSymlink = true
  · rw [if_neg (by simpa [or_iff_not_imp_left] using hkind)]
    refine parent_does h hs.node habs hparts (fun _ _ hnot => if_pos (by simp [hnot]))
      (fun hno _ => ⟨rfl, fun p c i hu => hno p c hu.parent⟩) fun p hparent hdir => ?_
    have hok := hs.node p hparent.reach
    have hreach := Tree.lookup_reach hi
    rw [hparent.lookup] at hi
    rw [if_neg (by simp [hdir])]
    refine (removeDirEntry_does h hok hdir rfl hparent.plain).bind_either ?_ ?_
    · rintro x s₁ ⟨hrem, hroom⟩
      have hfound := hrem.find_eq hok hdir hparent.plain
      obtain rfl : i = x := Option.some.inj (hi.symm.trans hfound)
      obtain ⟨A, B, hfirst, hA, hr⟩ := id hrem
      have hin := hr.inode
      have := unname_does h (hr.nodeOk_of_reach hs hparent.reach hdir hreach) (hin ▸ hread i)
      rw [hin] at this
      refine this.mono_either (fun _ s' hun => ?_) fun _ _ hf => hf.elim
      refine ⟨p, c, i, ⟨hparent, hi, hkind, ⟨i, asBytes c⟩, ?_, rfl⟩, s₁, hrem, hroom, hun⟩
      rw [hfirst]
      exact mem_append_right _ mem_cons_self
    · rintro e s₁ ⟨hno, rfl⟩
      refine ⟨rfl, fun q d j hu => ?_⟩
      obtain ⟨e, he, hname⟩ := hu.first
      obtain ⟨rfl, rfl⟩ := hparent.unique hu.parent
      exact hno e he hname
  · rw [if_pos (by simpa [not_or] using hkind)]
    refine fail ⟨rfl, fun q d j hu => hkind ?_⟩
    rw [hu.lookup] at hi
    cases hi
    exact hu.kind

/-- Every entry that has a readable name is `.` or `..`. -/
def EmptyDir (s : Store) (i : ℕ) : Prop :=
  ∀ e ∈ (s.node i).entries.filterMap RawEntry.decode, e.name = dot ∨ e.name = dotDot

theorem isEmptyDir_does (h : Layout fs) (hs : Sound fs s) (hi : (treeOf fs s).Reach i)
    (hdir : (s.inode i).isDir = true)
    (hf : ∀ empty, (empty = true ↔ EmptyDir s i) → Does (At fs) (f empty) s Q) :
    Does (At fs) (reading (isEmptyDir fs (s.inode i)) >>= f) s Q := by
  intro w hw
  have hentries : (s.node i).entries = dirEntries s.block (s.inode i) := if_pos hdir
  have hok : isEmptyDir fs (s.inode i) w.dev =
      .ok (((s.node i).entries.filterMap RawEntry.decode).all
        fun e => e.name = dot ∨ e.name = dotDot) := by
    rw [isEmptyDir, if_neg (by simp [hdir]), readDirEntries_at h hw hs.node hi hdir, Res.ok_bind,
      hentries]
  rw [reading_bind_of_ok hok]
  exact hf _ (by simp only [EmptyDir, all_eq_true, decide_eq_true_eq]) w hw

theorem rmdir_does (h : Layout fs) (hs : Sound fs s) (path : Str) :
    Does (At fs) (rmdir fs path) s (Either (fun _ s' => ∃ p c i s₁, (treeOf fs s).Parent path p c ∧
        (treeOf fs s).lookup true path = some i ∧ (s.inode i).isDir = true ∧ EmptyDir s i ∧
        Removed s p ⟨i, asBytes c⟩ s₁ ∧
        s' = ((s₁.markAll (s₁.refs i) false).setInodeUsed i false).setInode p
          { s.inode p with links := max ((s.inode p).links - 1) 2 })
      fun _ s' => s' = s ∨
        ∃ p c x, (treeOf fs s).Parent path p c ∧ Removed s p ⟨x, asBytes c⟩ s') := by
  refine assume (fun w hw => hw.inode_read) fun hread => ?_
  unfold rmdir
  by_cases hroot : path = ['/']
  · rw [if_pos hroot]
    exact fail (.inl rfl)
  rw [if_neg hroot]
  refine split_does (fun _ _ => .inl rfl) fun ps c habs hparts => ?_
  refine lookup_does h hs.node true (fun _ _ => .inl rfl) fun i hi => ?_
  have hreach := Tree.lookup_reach hi
  dsimp only
  by_cases hidir : (s.inode i).isDir = true
  · rw [if_neg (by simp [hidir])]
    refine isEmptyDir_does h hs hreach hidir fun empty hempty => ?_
    by_cases he : empty = true
    · rw [if_neg (by simp [he])]
      refine parent_does h hs.node habs hparts (fun _ _ hnot => if_pos (by simp [hnot]))
        (fun _ _ => .inl rfl) fun p hparent hdir => ?_
      dsimp only
      have hok := hs.node p hparent.reach
      rw [if_neg (by simp [hdir])]
      refine (removeDirEntry_does h hok hdir rfl hparent.plain).bind_either ?_ ?_
      · rintro x s₁ ⟨hrem, -⟩
        by_cases hx : x = i
        · subst hx
          rw [if_neg (by simp)]
          obtain ⟨A, B, hfirst, hA, hr⟩ := id hrem
          have hok₁ := hr.nodeOk_of_reach hs hparent.reach hdir hreach
          have hlinks := (hread p).1.links
          rw [← hr.inode]
          refine (freeInodeBlocks_does h fun b hb => (hok₁.refs b hb).1).step ?_
          refine (freeInode_does h hok₁.valid).step ?_
          rw [hr.inode]
          refine (relink_does h hok.valid (hread p) (by omega) (hread p).1.ctime).mono ?_
          rintro r s' ⟨rfl, rfl⟩
          exact ⟨p, c, x, s₁, hparent, hi, hidir, hempty.1 he, hrem, by rw [Store.refs, hr.inode]⟩
        · rw [if_pos hx]
          exact fail (.inr ⟨p, c, x, hparent, hrem⟩)
      · rintro e s₁ ⟨-, rfl⟩
        exact .inl rfl
    · rw [if_pos (by simp [he])]
      exact fail (.inl rfl)
  · rw [if_pos (by simp [hidir])]
    exact fail (.inl rfl)

section Sound
variable (hs : Sound fs s)
include hs

theorem Sound.ne_root (hdir : (s.inode i).isDir = false) : i ≠ fs.rootIno := by
  rintro rfl
  rw [hs.root] at hdir
  cases hdir

section Gone
variable (hr : Removed s p ⟨i, asBytes c⟩ s₁) (hp : (treeOf fs s).Reach p)
  (hdir : (s.inode p).isDir = true) (hname : ¬RawEntry.Dots ⟨i, asBytes c⟩)
include hr hp hdir hname

/-- An inode whose last name was removed goes away with its blocks. -/
theorem Removed.free (hi : (treeOf fs s).Reach i) (hgone : ¬(treeOf fs s₁).Reach i) :
    Frame fs s₁ ((s₁.markAll (s₁.refs i) false).setInodeUsed i false) := by
  have hs₁ := hr.soundUpTo hs hp hdir hname
  have hback : ∀ j, (treeOf fs s₁).Reach j → (treeOf fs s).Reach j :=
    fun j hj => (hr.drops hs hp hdir hname).reach_of hj
  obtain ⟨A, B, -, -, hrw⟩ := hr
  refine frame_free hs₁ hgone (fun b hb => ?_) fun j hj => ?_
  · rw [hrw.refs_of_reach hs hp hdir hi] at hb
    exact ((hs.node i hi).refs b hb).1
  · rw [hrw.refs_of_reach hs hp hdir hi, hrw.refs_of_reach hs hp hdir (hback j hj)]
    exact hs.disjoint i j hi (hback j hj) fun hij => hgone (hij ▸ hj)

end Gone

section Unlinked
variable (hu : Unlinkable fs s path p c i)
include hu

theorem Unlinkable.ne_root : i ≠ fs.rootIno := hs.ne_root (isDir_of_kind hu.kind)

/-- The inode of the removed entry is not part of the tree any more, or it only gets another
link count. -/
theorem Unlinkable.frame (hr : Removed s p ⟨i, asBytes c⟩ s₁) (hun : Unnamed s₁ i s') :
    Frame fs s₁ s' := by
  have hp := hu.parent
  have hs₁ := hr.soundUpTo hs hp.reach hp.dir (hp.not_dots i)
  rcases hun with ⟨hl, now, rfl⟩ | ⟨hl, rfl⟩
  · exact frame_setInode hs₁ ⟨rfl, rfl, rfl⟩
  refine hr.free hs hp.reach hp.dir (hp.not_dots i) (Tree.lookup_reach hu.lookup) ?_
  refine hs₁.not_reach (hu.ne_root hs) ?_
  have hin : s₁.inode = s.inode := by
    obtain ⟨A, B, -, -, hrw⟩ := hr
    exact hrw.inode
  have := hs₁.count i
  rw [nameBound_of_not_dir (hu.ne_root hs) (isDir_of_kind hu.kind), if_pos rfl, ← hin] at this
  omega

theorem Unlinked.sound (h : Unlinked s p c i s') : Sound fs s' := by
  obtain ⟨s₁, hrem, -, hun⟩ := h
  have hp := hu.parent
  have hnot := isDir_of_kind hu.kind
  have hs₁ := hrem.soundUpTo hs hp.reach hp.dir (hp.not_dots i)
  have hs' := (hu.frame hs hrem hun).soundUpTo hs₁
  have hin : s₁.inode = s.inode := by
    obtain ⟨A, B, -, -, hrw⟩ := hrem
    exact hrw.inode
  refine hs'.rebound fun j _ => ?_
  rcases hun with ⟨hl, now, rfl⟩ | ⟨hl, rfl⟩
  · by_cases hji : j = i
    · subst hji
      have hroot := hu.ne_root hs
      have hnot' : ((s₁.setInode j { s₁.inode j with
          links := (s₁.inode j).links - 1, ctime := now }).inode j).isDir = false := by
        rw [setInode_self, ← hnot, ← hin]
        rfl
      rw [nameBound_of_not_dir hroot hnot, nameBound_of_not_dir hroot hnot', setInode_self,
        if_pos rfl, hin]
    · rw [if_neg hji]
      exact (nameBound_congr ((setInode_of_ne _ _ hji).trans (congrFun hin j))).ge
  · exact (sub_le _ _).trans (nameBound_congr (congrFun hin j)).ge

end Unlinked

/-- A name that goes away while its inode stays. -/
theorem Removed.sound (h : Removed s p ⟨x, asBytes c⟩ s') (hp : (treeOf fs s).Reach p)
    (hdir : (s.inode p).isDir = true) (hname : ¬RawEntry.Dots ⟨x, asBytes c⟩) : Sound fs s' := by
  refine (h.soundUpTo hs hp hdir hname).mono fun j hj => ?_
  obtain ⟨A, B, -, -, hrw⟩ := h
  rw [nameBound_congr (congrFun hrw.inode j)]
  exact hj.trans (sub_le _ _)

theorem nameCount_pos (hp : (treeOf fs s).Reach p) (hi : i ∈ (treeOf fs s).succ p) :
    0 < nameCount fs s i := by
  have hU : p ∈ Finset.range (fs.inodesCount + 1) :=
    Finset.mem_range.2 (lt_succ_of_le (hs.node p hp).valid.2)
  exact (count_pos_iff.2 hi).trans_le (Rooted.count_le_indegree hU hp i)

/-- The last steps of `rmdir`. -/
theorem Removed.rmdir_sound (h : Removed s p ⟨i, asBytes c⟩ s₁) (hp : (treeOf fs s).Parent path p c)
    (hi : (s.inode i).isDir = true) (hshape : inode.SameShape (s.inode p)) :
    Sound fs (((s₁.markAll (s₁.refs i) false).setInodeUsed i false).setInode p inode) := by
  have hname := hp.not_dots i
  have hsucc := Tree.find_succ hp.dir (h.find_eq (hs.node p hp.reach) hp.dir hp.plain)
  have hcount := hs.count i
  have hpos := nameCount_pos hs hp.reach hsucc
  have hroot : i ≠ fs.rootIno := by
    rintro rfl
    rw [nameBound, if_pos rfl] at hcount
    omega
  have hs₁ := h.soundUpTo hs hp.reach hp.dir hname
  have hin : s₁.inode = s.inode := by
    obtain ⟨A, B, -, -, hrw⟩ := h
    exact hrw.inode
  have hzero : nameCount fs s₁ i = 0 := by
    have := hs₁.count i
    rw [nameBound, if_neg hroot, if_pos hi, if_pos rfl] at this
    omega
  have hgone := hs₁.not_reach hroot hzero
  have hs₂ := (h.free hs hp.reach hp.dir hname (hp.reach.step hsucc) hgone).soundUpTo hs₁
  refine ((frame_setInode hs₂ (hin ▸ hshape)).soundUpTo hs₂).rebound fun j _ => ?_
  refine (sub_le _ _).trans (le_of_eq ?_)
  by_cases hjp : j = p
  · subst hjp
    have hdir : (s.inode j).isDir = true := hp.dir
    rw [nameBound_of_dir hdir, nameBound_of_dir (by rw [setInode_self, hshape.isDir, hdir])]
  · exact (nameBound_congr ((setInode_of_ne _ _ hjp).trans (congrFun hin j))).symm

end Sound

end Ristux.Ext2
