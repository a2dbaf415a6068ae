import Ristux.Ext2.Lookup

-- The invariant of the file system: what can be reached from the root is well formed, owns its
-- blocks alone, and is named at most as often as its link count admits.

namespace Ristux.Ext2
open Lib Proc List Ext2

/-- The same kind, size and pointers. -/
structure Inode.SameShape (a b : Inode) : Prop where
  mode : a.mode = b.mode
  size : a.size = b.size
  blocks : a.blocks = b.blocks

theorem Inode.SameShape.refl (a : Inode) : a.SameShape a := ⟨rfl, rfl, rfl⟩

namespace Inode.SameShape
variable {a b : Inode} (h : a.SameShape b)
include h

theorem isDir : a.isDir = b.isDir := by rw [Inode.isDir, Inode.isDir, h.mode]

theorem isSymlink : a.isSymlink = b.isSymlink := by rw [Inode.isSymlink, Inode.isSymlink, h.mode]

theorem roots : a.roots = b.roots := by
  rw [Inode.roots, Inode.roots, Inode.direct, Inode.direct, h.blocks]

theorem refs (d : Disk) : refs d a = refs d b := by rw [Ext2.refs, Ext2.refs, h.roots]

theorem dataBlocks (d : Disk) : Ext2.dataBlocks d a = Ext2.dataBlocks d b := by
  rw [Ext2.dataBlocks, Ext2.dataBlocks, h.roots]

theorem dataOf (d : Disk) : Ext2.dataOf d a = Ext2.dataOf d b := by
  rw [Ext2.dataOf, Ext2.dataOf, h.size, h.dataBlocks]

theorem dirEntries (d : Disk) : Ext2.dirEntries d a = Ext2.dirEntries d b := by
  rw [Ext2.dirEntries, Ext2.dirEntries, h.dataBlocks]

theorem dirOk (hok : DirOk d b) : DirOk d a :=
  ⟨h.blocks ▸ hok.first, by rw [h.size, h.dataBlocks]; exact hok.size, h.size ▸ hok.small,
    by rw [h.dataBlocks]; exact hok.tiled, by rw [h.blocks]; exact hok.dot⟩

end Inode.SameShape

theorem dataBlocks_subset_refs (hb : b ∈ dataBlocks d inode) : b ∈ refs d inode :=
  Forest.mem_allNodes.2 (.inr hb)

section DiskCongr
variable {d d' : Disk} (h : ∀ b ∈ refs d inode, d' b = d b)
include h

theorem dataBlocks_eq_of_same : dataBlocks d' inode = dataBlocks d inode :=
  (refs_congr fun b hb => h b (refs_mem_inner hb)).1

theorem dirEntries_congr : dirEntries d' inode = dirEntries d inode := by
  rw [dirEntries, dirEntries, dataBlocks_eq_of_same h]
  exact flatMap_congr fun b hb => by rw [h b (dataBlocks_subset_refs hb)]

theorem DirOk.congr (hok : DirOk d inode) : DirOk d' inode := by
  have hblocks := dataBlocks_eq_of_same h
  refine ⟨hok.first, by rw [hblocks]; exact hok.size, hok.small, fun b hb => ?_, ?_⟩
  · rw [hblocks] at hb
    rw [h b (dataBlocks_subset_refs hb)]
    exact hok.tiled b hb
  · rw [h _ (Inode.block_mem_refs d inode hok.first)]
    exact hok.dot

end DiskCongr

/-- Inode `i` looks the same in both stores. -/
structure SameNode (s s' : Store) (i : ℕ) : Prop where
  shape : (s'.inode i).SameShape (s.inode i)
  block : ∀ b ∈ s.refs i, s'.block b = s.block b

namespace SameNode
variable (h : SameNode s s' i)
include h

theorem refs : s'.refs i = s.refs i := by
  rw [Store.refs, h.shape.refs, (refs_congr fun b hb => h.block b (refs_mem_inner hb)).2]
  rfl

theorem dataOf : dataOf s'.block (s'.inode i) = dataOf s.block (s.inode i) := by
  rw [h.shape.dataOf, dataOf_congr h.block]

theorem node : s'.node i = s.node i := by
  have hlink : s'.linkTarget i = s.linkTarget i := by
    rw [Store.linkTarget, Store.linkTarget, h.dataOf]
  simp only [Store.node, h.shape.isDir, h.shape.isSymlink, hlink, h.shape.dirEntries,
    dirEntries_congr h.block]

theorem nodeOk (hok : NodeOk fs s i) (hused : s'.inodeUsed i = true)
    (hblocks : ∀ b ∈ s.refs i, s'.blockUsed b = true) : NodeOk fs s' i where
  valid := hok.valid
  used := hused
  refs b hb := by
    rw [h.refs] at hb
    exact ⟨(hok.refs b hb).1, hblocks b hb⟩
  nodup := h.refs ▸ hok.nodup
  dir hdir := h.shape.dirOk ((hok.dir (h.shape.isDir ▸ hdir)).congr h.block)

end SameNode

/-- How many entries name inode `i`, apart from `.` and `..`. -/
noncomputable def nameCount (fs : Ext2Fs) (s : Store) (i : ℕ) : ℕ :=
  Rooted.indegree (Finset.range (fs.inodesCount + 1)) (treeOf fs s).succ fs.rootIno i

/-- How often an inode may be named: the root not at all, a directory once, anything else as
often as its link count says. -/
def nameBound (fs : Ext2Fs) (s : Store) (i : ℕ) : ℕ :=
  if i = fs.rootIno then 0 else if (s.inode i).isDir then 1 else (s.inode i).links

/-- The invariant, with the number of names left open: it changes in the middle of an
operation. -/
structure SoundUpTo (fs : Ext2Fs) (bound : ℕ → ℕ) (s : Store) : Prop where
  node : ∀ i, (treeOf fs s).Reach i → NodeOk fs s i
  disjoint : ∀ i j, (treeOf fs s).Reach i → (treeOf fs s).Reach j → i ≠ j →
    Disjoint (s.refs i) (s.refs j)
  root : (s.inode fs.rootIno).isDir = true
  dotSelf : ∀ d, (treeOf fs s).Reach d → ∀ e ∈ (s.node d).entries, e.name = asBytes dot → e.ino = d
  dotDotParent : ∀ d, (treeOf fs s).Reach d → ∀ i ∈ (treeOf fs s).succ d,
    ∀ e ∈ (s.node i).entries, e.name = asBytes dotDot → e.ino = d
  dotDotRoot : ∀ e ∈ (s.node fs.rootIno).entries, e.name = asBytes dotDot → e.ino = fs.rootIno
  count : ∀ i, nameCount fs s i ≤ bound i
  metaUsed : MetaUsed fs s

def Sound (fs : Ext2Fs) (s : Store) : Prop := SoundUpTo fs (nameBound fs s) s

theorem SoundUpTo.mono (h : SoundUpTo fs bound s)
    (hle : ∀ i, nameCount fs s i ≤ bound i → nameCount fs s i ≤ bound' i) :
    SoundUpTo fs bound' s := { h with count := fun i => hle i (h.count i) }

theorem reach_rootIno : (treeOf fs s).Reach fs.rootIno :=
  Rooted.reach_root

/-- Path lookup sees no difference between the stores. -/
structure SameTree (fs : Ext2Fs) (s s' : Store) : Prop where
  node : ∀ i, (treeOf fs s).Reach i → s'.node i = s.node i

namespace SameTree
variable (h : SameTree fs s s')
include h

theorem node_eq (hi : (treeOf fs s).Reach i) :
    (treeOf fs s').node i = (treeOf fs s).node i := h.node i hi

omit h in
theorem root_eq : (treeOf fs s').root = (treeOf fs s).root := rfl

theorem reach_iff : (treeOf fs s').Reach i ↔ (treeOf fs s).Reach i :=
  Tree.reach_congr root_eq fun _ hi => h.node_eq hi

theorem resolve_eq (follow : Bool) (depth : ℕ) (parts : List Str) :
    (treeOf fs s').resolve follow depth parts = (treeOf fs s).resolve follow depth parts :=
  @Tree.resolve_congr (treeOf fs s) (treeOf fs s') rfl (fun _ hi => h.node_eq hi) follow depth parts

theorem succ_eq (hi : (treeOf fs s).Reach i) : (treeOf fs s').succ i = (treeOf fs s).succ i :=
  Tree.succ_congr (fun _ hi => h.node_eq hi) hi

theorem nameCount_eq (i : ℕ) : nameCount fs s' i = nameCount fs s i :=
  Rooted.indegree_congr (fun _ ha => h.succ_eq ha) i

/-- The blocks may have been rearranged as long as nobody shares any. -/
theorem soundUpTo (hs : SoundUpTo fs bound s) (hok : ∀ i, (treeOf fs s).Reach i → NodeOk fs s' i)
    (hdisjoint : ∀ i j, (treeOf fs s).Reach i → (treeOf fs s).Reach j → i ≠ j →
      Disjoint (s'.refs i) (s'.refs j)) (hmeta : MetaUsed fs s') : SoundUpTo fs bound s' where
  node i hi := hok i (h.reach_iff.1 hi)
  disjoint i j hi hj hij := hdisjoint i j (h.reach_iff.1 hi) (h.reach_iff.1 hj) hij
  root := by
    have hnode := h.node _ reach_rootIno
    exact (congrArg Node.isDir hnode).trans hs.root
  dotSelf d hd e he := by
    have hd' := h.reach_iff.1 hd
    rw [h.node d hd'] at he
    exact hs.dotSelf d hd' e he
  dotDotParent d hd i hi e he := by
    have hd' := h.reach_iff.1 hd
    rw [h.succ_eq hd'] at hi
    rw [h.node i (hd'.step hi)] at he
    exact hs.dotDotParent d hd' i hi e he
  dotDotRoot e he := by
    rw [h.node _ reach_rootIno] at he
    exact hs.dotDotRoot e he
  count i := by
    rw [h.nameCount_eq]
    exact hs.count i
  metaUsed := hmeta

end SameTree

/-- The reachable part is the same in both stores. -/
structure Frame (fs : Ext2Fs) (s s' : Store) : Prop where
  same : ∀ i, (treeOf fs s).Reach i → SameNode s s' i
  used : ∀ i, (treeOf fs s).Reach i → s'.inodeUsed i = true
  blocks : ∀ i, (treeOf fs s).Reach i → ∀ b ∈ s.refs i, s'.blockUsed b = true
  metaUsed : MetaUsed fs s'

namespace Frame
variable (h : Frame fs s s')
include h

theorem sameTree : SameTree fs s s' := ⟨fun i hi => (h.same i hi).node⟩

theorem soundUpTo (hs : SoundUpTo fs bound s) : SoundUpTo fs bound s' := by
  refine h.sameTree.soundUpTo hs (fun i hi => ?_) (fun i j hi hj hij => ?_) h.metaUsed
  · exact (h.same i hi).nodeOk (hs.node i hi) (h.used i hi) (h.blocks i hi)
  · rw [(h.same i hi).refs, (h.same j hj).refs]
    exact hs.disjoint i j hi hj hij

end Frame

end Ristux.Ext2
