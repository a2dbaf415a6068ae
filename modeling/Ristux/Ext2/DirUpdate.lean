import Ristux.Ext2.Sound

-- Both happen in the first block of the directory.

namespace Ristux.Ext2
open Lib Proc List Option Store Does
variable {s' : Store} {name : List UInt8}

def Store.first (s : Store) (p : ℕ) : ℕ := (s.inode p).blocks 0

/-- The entries in the first block of directory `p`. -/
def Store.firstEntries (s : Store) (p : ℕ) : List RawEntry :=
  liveEntries (records (s.block (s.first p)))

/-- The entries in its other blocks. -/
def Store.restEntries (s : Store) (p : ℕ) : List RawEntry :=
  (dataBlocks s.block (s.inode p)).tail.flatMap fun b => liveEntries (records (s.block b))

theorem dataBlocks_cons {inode : Inode} (h : inode.blocks 0 ≠ 0) :
    dataBlocks d inode = inode.blocks 0 :: (dataBlocks d inode).tail := by
  have hhead : (dataBlocks d inode).head? = some (inode.blocks 0) := by
    rw [dataBlocks_eq, Inode.direct, ofFn_succ, filter_cons_of_pos (by simpa using h)]
    rfl
  exact eq_cons_of_mem_head? hhead

theorem not_mem_inner {inode : Inode} (hnodup : (refs d inode).Nodup) (hb : b ∈ dataBlocks d inode) :
    b ∉ Forest.allInner (kids d) inode.roots := by
  have := (Forest.allNodes_perm inode.roots).nodup_iff.1 hnodup
  exact fun hi => (nodup_append.1 this).2.2 b hi b hb rfl

section First
variable (hok : NodeOk fs s p) (hdir : (s.inode p).isDir = true)
include hok hdir

theorem first_mem_dataBlocks : s.first p ∈ dataBlocks s.block (s.inode p) := by
  rw [dataBlocks_cons (hok.dir hdir).first]
  exact mem_cons_self

theorem first_mem_refs : s.first p ∈ s.refs p :=
  dataBlocks_subset_refs (first_mem_dataBlocks hok hdir)

theorem first_dataBlock : DataBlock fs (s.first p) := (hok.refs _ (first_mem_refs hok hdir)).1

theorem entries_eq : (s.node p).entries = s.firstEntries p ++ s.restEntries p := by
  simp only [node, if_pos hdir]
  rw [dirEntries, dataBlocks_cons (hok.dir hdir).first, flatMap_cons]
  rfl

theorem SameNode.firstEntries (h : SameNode s s' p) : s'.firstEntries p = s.firstEntries p := by
  have hfirst : s'.first p = s.first p := congrFun h.shape.blocks 0
  rw [Store.firstEntries, Store.firstEntries, hfirst, h.block _ (first_mem_refs hok hdir)]

omit hok hdir in
theorem SameNode.restEntries (h : SameNode s s' p) : s'.restEntries p = s.restEntries p := by
  rw [Store.restEntries, Store.restEntries, h.shape.dataBlocks, dataBlocks_eq_of_same h.block]
  refine flatMap_congr fun b hb => ?_
  rw [h.block b (dataBlocks_subset_refs (mem_of_mem_tail hb))]

/-- The store after the first block of directory `p` has been replaced. -/
theorem setFirst_same_tree (data : Buf) : dataBlocks (s.setBlock (s.first p) data).block (s.inode p) =
      dataBlocks s.block (s.inode p) ∧ (s.setBlock (s.first p) data).refs p = s.refs p := by
  refine refs_congr fun b hb => setBlock_of_ne _ _ ?_
  rintro rfl
  exact not_mem_inner hok.nodup (first_mem_dataBlocks hok hdir) hb

theorem tail_ne_first (hb : b ∈ (dataBlocks s.block (s.inode p)).tail) : b ≠ s.first p := by
  rintro rfl
  have hnodup : (dataBlocks s.block (s.inode p)).Nodup :=
    (nodup_append.1 ((Forest.allNodes_perm _).nodup_iff.1 hok.nodup)).2.1
  rw [dataBlocks_cons (hok.dir hdir).first] at hnodup
  exact (nodup_cons.1 hnodup).1 hb

theorem setFirst_entries (data : Buf) : ((s.setBlock (s.first p) data).node p).entries =
    liveEntries (records data) ++ s.restEntries p := by
  obtain ⟨hblocks, -⟩ := setFirst_same_tree hok hdir data
  change (if (s.inode p).isDir = true then dirEntries _ (s.inode p) else []) = _
  rw [if_pos hdir, dirEntries, hblocks, dataBlocks_cons (hok.dir hdir).first, flatMap_cons]
  congr 1
  · change liveEntries (records ((s.setBlock (s.first p) data).block (s.first p))) = _
    rw [setBlock_self]
  · refine flatMap_congr fun b hb => ?_
    rw [setBlock_of_ne _ _ (tail_ne_first hok hdir hb)]

theorem setFirst_nodeOk (htiled : Tiled data)
    (hdot : (records data).head?.map DirRecord.name = some (asBytes dot)) :
    NodeOk fs (s.setBlock (s.first p) data) p where
  valid := hok.valid
  used := hok.used
  refs b hb := by
    rw [(setFirst_same_tree hok hdir data).2] at hb
    exact hok.refs b hb
  nodup := by
    rw [(setFirst_same_tree hok hdir data).2]
    exact hok.nodup
  dir _ := by
    obtain ⟨hblocks, -⟩ := setFirst_same_tree hok hdir data
    have hd := hok.dir hdir
    refine ⟨hd.first, ?_, hd.small, fun b hb => ?_, ?_⟩
    · change (s.inode p).size = 1024 * (dataBlocks _ (s.inode p)).length
      rw [hblocks]
      exact hd.size
    · change b ∈ dataBlocks _ (s.inode p) at hb
      rw [hblocks] at hb
      by_cases hbf : b = s.first p
      · rw [hbf, setBlock_self]
        exact htiled
      · rw [setBlock_of_ne _ _ hbf]
        exact hd.tiled b hb
    · change ((records ((s.setBlock (s.first p) data).block (s.first p))).head?.map _) = _
      rw [setBlock_self]
      exact hdot

end First

/-- `s'` is `s` with a new first block for directory `p`, in which the entries `es` stand. -/
structure Rewrites (s : Store) (p : ℕ) (es : List RawEntry) (s' : Store) : Prop where
  eq : ∃ data, s' = s.setBlock (s.first p) data ∧ liveEntries (records data) = es ∧
    Tiled data ∧ (records data).head?.map DirRecord.name = some (asBytes dot)

/-- Entry `e` has been added to directory `p`. -/
def Added (s : Store) (p : ℕ) (e : RawEntry) (s' : Store) : Prop :=
  ∃ A B, s.firstEntries p = A ++ B ∧ Rewrites s p (A ++ e :: B) s'

/-- Entry `e`, the first one with its name, has been taken from directory `p`. -/
def Removed (s : Store) (p : ℕ) (e : RawEntry) (s' : Store) : Prop :=
  ∃ A B, s.firstEntries p = A ++ e :: B ∧ (∀ a ∈ A, a.name ≠ e.name) ∧ Rewrites s p (A ++ B) s'

variable {e : RawEntry}

namespace Rewrites
variable (h : Rewrites s p es s')
include h

theorem inode : s'.inode = s.inode := by
  obtain ⟨data, rfl, -⟩ := h.eq
  rfl

theorem inodeUsed : s'.inodeUsed = s.inodeUsed := by
  obtain ⟨data, rfl, -⟩ := h.eq
  rfl

theorem blockUsed : s'.blockUsed = s.blockUsed := by
  obtain ⟨data, rfl, -⟩ := h.eq
  rfl

theorem block_of_ne (hb : b ≠ s.first p) : s'.block b = s.block b := by
  obtain ⟨data, rfl, -⟩ := h.eq
  exact setBlock_of_ne _ _ hb

/-- An inode that does not own the first block of `p` is not affected. -/
theorem sameNode (hi : s.first p ∉ s.refs i) : SameNode s s' i where
  shape := by
    rw [h.inode]
    exact Inode.SameShape.refl _
  block b hb := h.block_of_ne fun heq => hi (heq ▸ hb)

theorem firstEntries : s'.firstEntries p = es := by
  obtain ⟨data, rfl, rfl, -⟩ := h.eq
  change liveEntries (records ((s.setBlock (s.first p) data).block (s.first p))) = _
  rw [setBlock_self]

section Dir
variable (hok : NodeOk fs s p) (hdir : (s.inode p).isDir = true)
include hok hdir

theorem restEntries : s'.restEntries p = s.restEntries p := by
  obtain ⟨data, rfl, -⟩ := h.eq
  have hblocks := (setFirst_same_tree hok hdir data).1
  change (dataBlocks _ (s.inode p)).tail.flatMap _ = _
  rw [hblocks]
  refine flatMap_congr fun b hb => ?_
  rw [setBlock_of_ne _ _ (tail_ne_first hok hdir hb)]

theorem entries : (s'.node p).entries = es ++ s.restEntries p := by
  obtain ⟨data, rfl, rfl, -⟩ := h.eq
  exact setFirst_entries hok hdir data

theorem refs : s'.refs p = s.refs p := by
  obtain ⟨data, rfl, -⟩ := h.eq
  exact (setFirst_same_tree hok hdir data).2

theorem nodeOk : NodeOk fs s' p := by
  obtain ⟨data, rfl, -, htiled, hdot⟩ := h.eq
  exact setFirst_nodeOk hok hdir htiled hdot

end Dir

section Sound
variable (hs : SoundUpTo fs bound s) (hp : (treeOf fs s).Reach p) (hdir : (s.inode p).isDir = true)
include hs hp hdir

section
variable (hi : (treeOf fs s).Reach i)
include hi

theorem sameNode_of_reach (hip : i ≠ p) : SameNode s s' i :=
  h.sameNode fun hmem => hs.disjoint i p hi hp hip hmem (first_mem_refs (hs.node p hp) hdir)

theorem refs_of_reach : s'.refs i = s.refs i := by
  by_cases hip : i = p
  · subst hip
    exact h.refs (hs.node i hi) hdir
  · exact (h.sameNode_of_reach hs hp hdir hi hip).refs

theorem restEntries_of_reach : s'.restEntries i = s.restEntries i := by
  by_cases hip : i = p
  · subst hip
    exact h.restEntries (hs.node i hi) hdir
  · exact (h.sameNode_of_reach hs hp hdir hi hip).restEntries

theorem nodeOk_of_reach : NodeOk fs s' i := by
  by_cases hip : i = p
  · subst hip
    exact h.nodeOk (hs.node i hi) hdir
  refine (h.sameNode_of_reach hs hp hdir hi hip).nodeOk (hs.node i hi) ?_ fun b hb => ?_
  · rw [h.inodeUsed]
    exact (hs.node i hi).used
  · rw [h.blockUsed]
    exact ((hs.node i hi).refs b hb).2

theorem succ_of_ne (hip : i ≠ p) : (treeOf fs s').succ i = (treeOf fs s).succ i := by
  have hnode : (treeOf fs s').node i = (treeOf fs s).node i :=
    (h.sameNode_of_reach hs hp hdir hi hip).node
  rw [Tree.succ, Tree.succ, hnode]

end

theorem succ_self : (treeOf fs s').succ p =
    ((es ++ s.restEntries p).filter fun e => ¬e.Dots).map RawEntry.ino := by
  have hdir' : ((treeOf fs s').node p).isDir = true := by
    change (s'.inode p).isDir = true
    rw [h.inode]
    exact hdir
  rw [Tree.succ, if_pos hdir', Node.real]
  change ((s'.node p).entries.filter _).map _ = _
  rw [h.entries (hs.node p hp) hdir]

/-- The dot entries do not change if none is added. -/
theorem dots_of_reach (hes : ∀ e ∈ es, e.Dots → e ∈ s.firstEntries p) (hi : (treeOf fs s).Reach i)
    (he : e ∈ (s'.node i).entries) (hd : e.Dots) : e ∈ (s.node i).entries := by
  by_cases hip : i = p
  · subst hip
    rw [h.entries (hs.node i hi) hdir] at he
    rw [entries_eq (hs.node i hi) hdir]
    rcases mem_append.1 he with he | he
    · exact mem_append_left _ (hes e he hd)
    · exact mem_append_right _ he
  · rwa [(h.sameNode_of_reach hs hp hdir hi hip).node] at he

end Sound

end Rewrites

theorem succ_dir (hok : NodeOk fs s p) (hdir : (s.inode p).isDir = true) : (treeOf fs s).succ p =
      ((s.firstEntries p ++ s.restEntries p).filter fun e => ¬e.Dots).map RawEntry.ino := by
  have hdir' : ((treeOf fs s).node p).isDir = true := hdir
  rw [Tree.succ, if_pos hdir', Node.real]
  change ((s.node p).entries.filter _).map _ = _
  rw [entries_eq hok hdir]

/-- What has to hold of inode `x` before it gets a name in directory `p`. -/
structure Linkable (fs : Ext2Fs) (s : Store) (p x : ℕ) : Prop where
  dotDot : ∀ e ∈ (s.node x).entries, e.name = asBytes dotDot → e.ino = p
  node : NodeOk fs s x
  disjoint : ∀ j, (treeOf fs s).Reach j → j ≠ x → List.Disjoint (s.refs x) (s.refs j)
  below : ¬(treeOf fs s).Reach x → (treeOf fs s).succ x = []
  dotSelf : ∀ e ∈ (s.node x).entries, e.name = asBytes dot → e.ino = x

namespace Added
variable (h : Added s p ⟨x, name⟩ s') (hs : SoundUpTo fs bound s) (hp : (treeOf fs s).Reach p)
  (hdir : (s.inode p).isDir = true) (hname : ¬RawEntry.Dots ⟨x, name⟩) (hx : Linkable fs s p x)
include h hs hp hdir hx

omit hs hdir in
theorem sameNode_new (hnew : ¬(treeOf fs s).Reach x) (hdir : (s.inode p).isDir = true)
    (hok : NodeOk fs s p) : SameNode s s' x := by
  obtain ⟨A, B, -, hr⟩ := h
  refine hr.sameNode fun hmem => ?_
  exact hx.disjoint p hp (fun heq => hnew (heq ▸ hp)) hmem (first_mem_refs hok hdir)

include hname

theorem adds : Rooted.Adds (treeOf fs s).succ fs.rootIno p x (treeOf fs s').succ where
  reach := hp
  perm := by
    obtain ⟨A, B, hfirst, hr⟩ := h
    rw [hr.succ_self hs hp hdir, succ_dir (hs.node p hp) hdir, hfirst]
    simp only [filter_append, filter_cons, hname, not_false_eq_true, decide_true,
      if_true, map_append, map_cons, append_assoc, cons_append]
    exact perm_middle
  other a ha hap := by
    obtain ⟨A, B, -, hr⟩ := h
    exact hr.succ_of_ne hs hp hdir ha hap
  below hnew := by
    have hnode : (treeOf fs s').node x = (treeOf fs s).node x :=
      (sameNode_new h hp hx hnew hdir (hs.node p hp)).node
    rw [Tree.succ, hnode]
    exact hx.below hnew

theorem reach_iff : (treeOf fs s').Reach i ↔ (treeOf fs s).Reach i ∨ i = x :=
  (adds h hs hp hdir hname hx).reach_iff

section
variable (hi : (treeOf fs s').Reach i)
include hi

theorem nodeOk_of_reach : NodeOk fs s' i := by
  have hok := hs.node p hp
  obtain ⟨A, B, hfirst, hr⟩ := id h
  by_cases hold : (treeOf fs s).Reach i
  · exact hr.nodeOk_of_reach hs hp hdir hold
  obtain rfl := ((reach_iff h hs hp hdir hname hx).1 hi).resolve_left hold
  refine (sameNode_new h hp hx hold hdir hok).nodeOk hx.node ?_ fun b hb => ?_
  · rw [hr.inodeUsed]
    exact hx.node.used
  · rw [hr.blockUsed]
    exact (hx.node.refs b hb).2

theorem refs_of_reach : s'.refs i = s.refs i := by
  by_cases hold : (treeOf fs s).Reach i
  · obtain ⟨A, B, hfirst, hr⟩ := id h
    exact hr.refs_of_reach hs hp hdir hold
  · obtain rfl := ((reach_iff h hs hp hdir hname hx).1 hi).resolve_left hold
    exact (sameNode_new h hp hx hold hdir (hs.node p hp)).refs

theorem dots_of_reach (he : e ∈ (s'.node i).entries) (hd : e.Dots) : e ∈ (s.node i).entries := by
  by_cases hold : (treeOf fs s).Reach i
  · obtain ⟨A, B, hfirst, hr⟩ := id h
    refine hr.dots_of_reach hs hp hdir (fun f hf hfd => ?_) hold he hd
    rw [hfirst]
    rcases mem_append.1 hf with hf | hf
    · exact mem_append_left _ hf
    rcases mem_cons.1 hf with rfl | hf
    · exact absurd hfd hname
    · exact mem_append_right _ hf
  · obtain rfl := ((reach_iff h hs hp hdir hname hx).1 hi).resolve_left hold
    rwa [(sameNode_new h hp hx hold hdir (hs.node p hp)).node] at he

end

/-- Naming an inode once more. -/
theorem soundUpTo : SoundUpTo fs (fun i => bound i + if i = x then 1 else 0) s' := by
  have hadds := adds h hs hp hdir hname hx
  have hinode : s'.inode = s.inode := by
    obtain ⟨A, B, -, hr⟩ := id h
    exact hr.inode
  have hpU : p ∈ Finset.range (fs.inodesCount + 1) :=
    Finset.mem_range.2 (Nat.lt_succ_of_le (hs.node p hp).valid.2)
  have hold : ∀ i, (treeOf fs s').Reach i → i ≠ x → (treeOf fs s).Reach i :=
    fun i hi hix => (hadds.reach_iff.1 hi).resolve_right hix
  refine ⟨fun i hi => nodeOk_of_reach h hs hp hdir hname hx hi, fun i j hi hj hij => ?_,
    hinode ▸ hs.root, fun d hd e he hn => ?_, fun d hd i hi e he hn => ?_, fun e he hn => ?_,
    fun i => ?_, ?_⟩
  · rw [refs_of_reach h hs hp hdir hname hx hi, refs_of_reach h hs hp hdir hname hx hj]
    by_cases hix : i = x
    · subst hix
      exact hx.disjoint j (hold j hj hij.symm) hij.symm
    by_cases hjx : j = x
    · subst hjx
      exact (hx.disjoint i (hold i hi hix) hix).symm
    · exact hs.disjoint i j (hold i hi hix) (hold j hj hjx) hij
  · have he' := dots_of_reach h hs hp hdir hname hx hd he (.inl hn)
    by_cases hdx : d = x
    · subst hdx
      exact hx.dotSelf e he' hn
    · exact hs.dotSelf d (hold d hd hdx) e he' hn
  · have hi' : (treeOf fs s').Reach i := hd.step hi
    have he' := dots_of_reach h hs hp hdir hname hx hi' he (.inr hn)
    by_cases hr : (treeOf fs s).Reach d
    · by_cases hdp : d = p
      · subst hdp
        rcases mem_cons.1 (hadds.perm.mem_iff.1 hi) with rfl | hi
        · exact hx.dotDot e he' hn
        · exact hs.dotDotParent d hr i hi e he' hn
      · rw [hadds.other d hr hdp] at hi
        exact hs.dotDotParent d hr i hi e he' hn
    · obtain rfl := (hadds.reach_iff.1 hd).resolve_left hr
      rw [hadds.below hr] at hi
      cases hi
  · have he' := dots_of_reach h hs hp hdir hname hx reach_rootIno he (.inr hn)
    exact hs.dotDotRoot e he' hn
  · rw [nameCount, hadds.indegree_eq hpU]
    exact Nat.add_le_add_right (hs.count i) _
  · intro b hb
    obtain ⟨A, B, -, hr⟩ := h
    rw [hr.blockUsed]
    exact hs.metaUsed b hb

end Added

namespace Removed
variable (h : Removed s p ⟨x, name⟩ s') (hs : SoundUpTo fs bound s) (hp : (treeOf fs s).Reach p)
  (hdir : (s.inode p).isDir = true) (hname : ¬RawEntry.Dots ⟨x, name⟩)
include h hs hp hdir hname

theorem drops : Rooted.Drops (treeOf fs s).succ fs.rootIno p x (treeOf fs s').succ where
  reach := hp
  perm := by
    obtain ⟨A, B, hfirst, -, hr⟩ := h
    rw [hr.succ_self hs hp hdir, succ_dir (hs.node p hp) hdir, hfirst]
    simp only [filter_append, filter_cons, hname, not_false_eq_true, decide_true,
      if_true, map_append, map_cons, append_assoc, cons_append]
    exact perm_middle
  other a ha hap := by
    obtain ⟨A, B, -, -, hr⟩ := h
    exact hr.succ_of_ne hs hp hdir ha hap

omit hname in
theorem dots_of_reach (hi : (treeOf fs s).Reach i) (he : e ∈ (s'.node i).entries) (hd : e.Dots) :
    e ∈ (s.node i).entries := by
  obtain ⟨A, B, hfirst, -, hr⟩ := h
  refine hr.dots_of_reach hs hp hdir (fun f hf _ => ?_) hi he hd
  rw [hfirst]
  rcases mem_append.1 hf with hf | hf
  · exact mem_append_left _ hf
  · exact mem_append_right _ (mem_cons_of_mem _ hf)

/-- Taking a name away. -/
theorem soundUpTo : SoundUpTo fs (fun i => bound i - if i = x then 1 else 0) s' := by
  have hdrops := drops h hs hp hdir hname
  have hpU : p ∈ Finset.range (fs.inodesCount + 1) :=
    Finset.mem_range.2 (Nat.lt_succ_of_le (hs.node p hp).valid.2)
  have hold : ∀ i, (treeOf fs s').Reach i → (treeOf fs s).Reach i := fun i hi => hdrops.reach_of hi
  have hdots : ∀ i, (treeOf fs s).Reach i → ∀ e ∈ (s'.node i).entries, e.Dots →
      e ∈ (s.node i).entries := fun i hi e he hd => dots_of_reach h hs hp hdir hi he hd
  obtain ⟨A, B, -, -, hr⟩ := h
  refine ⟨fun i hi => hr.nodeOk_of_reach hs hp hdir (hold i hi), fun i j hi hj hij => ?_,
    hr.inode ▸ hs.root, fun d hd e he hn => ?_, fun d hd i hi e he hn => ?_, fun e he hn => ?_,
    fun i => ?_, fun b hb => ?_⟩
  · rw [hr.refs_of_reach hs hp hdir (hold i hi), hr.refs_of_reach hs hp hdir (hold j hj)]
    exact hs.disjoint i j (hold i hi) (hold j hj) hij
  · exact hs.dotSelf d (hold d hd) e (hdots d (hold d hd) e he (.inl hn)) hn
  · have hi' := hdrops.subset (hold d hd) hi
    exact hs.dotDotParent d (hold d hd) i hi' e
      (hdots i ((hold d hd).step hi') e he (.inr hn)) hn
  · exact hs.dotDotRoot e (hdots _ reach_rootIno e he (.inr hn)) hn
  · have hle := hdrops.indegree_le hpU i
    have := hs.count i
    unfold nameCount at this ⊢
    omega
  · rw [hr.blockUsed]
    exact hs.metaUsed b hb

end Removed

/-- The first block of directory `p` has room for `name`. -/
def Room (s : Store) (p : ℕ) (name : List UInt8) : Prop :=
  name ≠ [] ∧ name.length ≤ 255 ∧ ∃ r ∈ records (s.block (s.first p)),
    r.actual + align4 (8 + name.length) ≤ r.len

theorem insertIn_some (h : insertIn ino name rs = some rs') :
    (∃ r ∈ rs, r.actual + align4 (8 + name.length) ≤ r.len) ∧ rs'.head?.map DirRecord.name =
    rs.head?.map DirRecord.name := by
  induction rs generalizing rs' with
  | nil => cases h
  | cons r rs ih =>
    rw [insertIn] at h
    split_ifs at h with hs
    · cases h
      exact ⟨⟨r, mem_cons_self, hs⟩, rfl⟩
    obtain ⟨qs, hqs, rfl⟩ := map_eq_some_iff.1 h
    obtain ⟨⟨q, hq, hslack⟩, -⟩ := ih hqs
    exact ⟨⟨q, mem_cons_of_mem _ hq, hslack⟩, rfl⟩

theorem removeNext_head {prev : DirRecord} (h : removeNext name prev rs = some (ino, rs')) :
    rs'.head?.map DirRecord.name = some prev.name := by
  cases rs with
  | nil => cases h
  | cons r rs =>
    rw [removeNext] at h
    split_ifs at h with hr
    · cases h
      rfl
    obtain ⟨⟨i, qs⟩, -, hp⟩ := map_eq_some_iff.1 h
    cases hp
    rfl

/-- A name other than that of the first record is removed from the records after it. -/
theorem removeIn_of_head (hhead : rs.head?.map DirRecord.name = some n) (hn : n ≠ name) :
    ∃ r qs, rs = r :: qs ∧ removeIn name rs = removeNext name r qs := by
  cases rs with
  | nil => cases hhead
  | cons r qs =>
    have hr : r.name = n := some.inj hhead
    refine ⟨r, qs, rfl, ?_⟩
    rw [removeIn, if_neg fun hc => hn (hr ▸ hc.2)]

section Does
variable (h : Layout fs) (hok : NodeOk fs s p) (hdir : (s.inode p).isDir = true) {parent : Inode}
  (hparent : parent.blocks = (s.inode p).blocks)
include h hok hdir hparent

theorem insertDirEntry_does (hx : ValidIno fs x) (name : Str) (fileType : ℕ) :
    Does (At fs) (insertDirEntry fs parent x name fileType) s (Either
      (fun _ s' => Room s p (asBytes name) ∧ Added s p ⟨x, asBytes name⟩ s')
      fun _ s' => ¬Room s p (asBytes name) ∧ s' = s) := by
  have hd := hok.dir hdir
  have hfirst : parent.blocks 0 = s.first p := by rw [hparent]; rfl
  unfold insertDirEntry
  by_cases hlen : asBytes name = [] ∨ (asBytes name).length > 255
  · rw [if_pos hlen]
    refine fail ⟨fun hr => ?_, rfl⟩
    rcases hlen with hnil | hlong
    · exact hr.1 hnil
    · exact absurd hr.2.1 (by omega)
  rw [not_or] at hlen
  rw [if_neg (by tauto), hfirst, if_neg (show ¬s.first p = 0 from hd.first)]
  refine query_bind (fun w hw => readBlock_eq h hw (first_dataBlock hok hdir) le_rfl) ?_
  rw [lift_ok_bind, h.blockSize]
  have htiled : Tiled (s.block (s.first p)) := hd.tiled _ (first_mem_dataBlocks hok hdir)
  have hins := @insertRecord_eq x _ 0 (1024 / 8 + 1) _ (asBytes name) (by omega)
    (h.ino_lt hx) fileType
    htiled (by omega)
  rcases hin : insertIn x (asBytes name) (records (s.block (s.first p))) with _ | rs'
  · rw [hin] at hins
    rw [hins, lift_ok_bind]
    refine fail ⟨?_, rfl⟩
    rintro ⟨-, -, r, hr, hslack⟩
    exact insertIn_ne_none hr hslack hin
  rw [hin] at hins
  obtain ⟨data, heq, hchain, -⟩ := hins
  rw [heq, lift_ok_bind]
  refine (writeBlock_does h (first_dataBlock hok hdir) le_rfl data).mono ?_
  rintro r s' ⟨rfl, rfl⟩
  obtain ⟨hroom, hhead⟩ := insertIn_some hin
  obtain ⟨A, B, hold, hnew⟩ := insertIn_entries hx.1 hlen.1 hin
  have hrec := records_eq hchain
  refine ⟨⟨hlen.1, by omega, hroom⟩, A, B, hold, data, rfl, ?_, ?_, ?_⟩
  · rw [hrec, hnew]
  · rw [Tiled, hrec]
    exact hchain
  · rw [hrec, hhead]
    exact hd.dot

theorem removeDirEntry_does {name : Str} (hname : Plain name) :
    Does (At fs) (removeDirEntry fs parent name) s (Either
      (fun x s' => Removed s p ⟨x, asBytes name⟩ s' ∧ Room s' p (asBytes name))
      fun _ s' => (∀ e ∈ s.firstEntries p, e.name ≠ asBytes name) ∧ s' = s) := by
  have hd := hok.dir hdir
  have hfirst : parent.blocks 0 = s.first p := by rw [hparent]; rfl
  have hdata := first_dataBlock hok hdir
  have htiled : Tiled (s.block (s.first p)) := hd.tiled _ (first_mem_dataBlocks hok hdir)
  unfold removeDirEntry
  rw [if_neg fun hc => hc.elim hname.1 fun hc => hc.elim hname.2.1 hname.2.2.1, hfirst,
    if_neg (show ¬s.first p = 0 from hd.first)]
  refine query_bind (fun w hw => readBlock_eq h hw hdata le_rfl) ?_
  rw [lift_ok_bind, h.blockSize]
  have hne : asBytes dot ≠ asBytes name := fun heq => hname.2.1 (asBytes_injective heq).symm
  have hdot : (records (s.block (s.first p))).head?.map DirRecord.name = some (asBytes dot) := hd.dot
  obtain ⟨q, qs, hrs, hrem⟩ := removeIn_of_head hdot hne
  have hcode := @removeRecord_eq _ _ (asBytes name) htiled
  rcases hin : removeIn (asBytes name) (records (s.block (s.first p))) with _ | ⟨x, rs'⟩
  · rw [hin] at hcode
    rw [hcode, lift_ok_bind]
    exact fail ⟨removeIn_none hin, rfl⟩
  rw [hin] at hcode
  obtain ⟨data, heq, hchain⟩ := hcode
  rw [heq, lift_ok_bind]
  refine (writeBlock_does h hdata le_rfl data).step (pure ?_)
  obtain ⟨A, B, hold, hA, hnew⟩ := removeIn_entries hin
  have hrec := records_eq hchain
  rw [hrem] at hin
  have hmem : ⟨x, asBytes name⟩ ∈ liveEntries (records (s.block (s.first p))) := by simp [hold]
  obtain ⟨r, hr, hlive, heq⟩ := mem_liveEntries.1 hmem
  obtain ⟨-, hrname⟩ := RawEntry.mk.inj heq
  refine ⟨⟨A, B, hold, hA, data, rfl, ?_, ?_, ?_⟩, ?_, ?_, ?_⟩
  · rw [hrec, hnew]
  · rw [Tiled, hrec]
    exact hchain
  · rw [hrec, removeNext_head hin, ← hdot, hrs]
    rfl
  · rw [hrname]
    exact hlive.2
  · have := htiled.name_lt r hr
    rw [hrname]
    omega
  · change ∃ r ∈ records ((s.setBlock (s.first p) data).block (s.first p)), _
    rw [setBlock_self, hrec]
    exact removeNext_slack (fun r hr => htiled.ok r (hrs ▸ hr)) hin

end Does

end Ristux.Ext2
