import Ristux.Ext2.Runs

-- Consistency speaks about everything that can be reached from the root. For a given image it can
-- be decided once the reachable inodes are listed.

namespace Ristux.Ext2
open Lib Proc

instance (fs : Ext2Fs) : Decidable (Layout fs) :=
  decidable_of_iff (fs.blockSize = 1024 ∧ (0 < fs.blocksPerGroup ∧ fs.blocksPerGroup ≤ 8192) ∧
      (0 < fs.inodesPerGroup ∧ fs.inodesPerGroup ≤ 8192) ∧
      (fs.inodeSize ∣ 1024 ∧ 128 ≤ fs.inodeSize) ∧
      (fs.blocksCount ≤ fs.groups.length * fs.blocksPerGroup ∧ fs.blocksCount ≤ u32Max) ∧
      (fs.inodesCount ≤ fs.groups.length * fs.inodesPerGroup ∧ fs.inodesCount < u32Max) ∧
      (metaBlocks fs).Nodup ∧ ∀ b ∈ metaBlocks fs, b < fs.blocksCount)
    ⟨fun ⟨h₁, h₂, h₃, h₄, h₅, h₆, h₇, h₈⟩ => ⟨h₁, h₂, h₃, h₄, h₅, h₆, h₇, h₈⟩,
      fun h => ⟨h.1, h.2, h.3, h.4, h.5, h.6, h.7, h.8⟩⟩

instance (d : Disk) (inode : Inode) : Decidable (DirOk d inode) :=
  decidable_of_iff (inode.blocks 0 ≠ 0 ∧ inode.size = 1024 * (dataBlocks d inode).length ∧
      inode.size < 2 ^ 63 ∧ (∀ b ∈ dataBlocks d inode, Tiled (d b)) ∧
      ((records (d (inode.blocks 0))).head?.map DirRecord.name) = some (asBytes dot))
    ⟨fun ⟨h₁, h₂, h₃, h₄, h₅⟩ => ⟨h₁, h₂, h₃, h₄, h₅⟩, fun h => ⟨h.1, h.2, h.3, h.4, h.5⟩⟩

instance (fs : Ext2Fs) (s : Store) (i : ℕ) : Decidable (NodeOk fs s i) :=
  decidable_of_iff (ValidIno fs i ∧ s.inodeUsed i = true ∧
      (∀ b ∈ s.refs i, DataBlock fs b ∧ s.blockUsed b = true) ∧ (s.refs i).Nodup ∧
      ((s.inode i).isDir = true → DirOk s.block (s.inode i)))
    ⟨fun ⟨h₁, h₂, h₃, h₄, h₅⟩ => ⟨h₁, h₂, h₃, h₄, h₅⟩, fun h => ⟨h.1, h.2, h.3, h.4, h.5⟩⟩

instance (fs : Ext2Fs) (i : ℕ) : Decidable (Ordinary fs i) := inferInstanceAs (Decidable (_ ∧ _))

/-- The number of names of inode `i` if the inodes `L` are all there is. -/
def countIn (fs : Ext2Fs) (s : Store) (L : List ℕ) (i : ℕ) : ℕ :=
  (L.map fun a => ((treeOf fs s).succ a).count i).sum

/-- The inodes `xs` are what can be reached from the root, and they are as they should be. -/
def Checked (fs : Ext2Fs) (s : Store) (xs : List ℕ) : Prop :=
  let L := fs.rootIno :: xs
  (Rooted.Spans (treeOf fs s).succ [fs.rootIno] xs ∧ (∀ a ∈ L, ∀ b ∈ (treeOf fs s).succ a, b ∈ L) ∧
    L.Nodup) ∧
  (∀ i ∈ L, NodeOk fs s i) ∧
  (∀ i ∈ L, ∀ j ∈ L, i ≠ j → ∀ b ∈ s.refs i, b ∉ s.refs j) ∧
  (s.inode fs.rootIno).isDir = true ∧
  (∀ d ∈ L, ∀ e ∈ (s.node d).entries, e.name = asBytes dot → e.ino = d) ∧
  (∀ d ∈ L, ∀ i ∈ (treeOf fs s).succ d, ∀ e ∈ (s.node i).entries, e.name = asBytes dotDot →
    e.ino = d) ∧
  (∀ e ∈ (s.node fs.rootIno).entries, e.name = asBytes dotDot → e.ino = fs.rootIno) ∧
  (∀ i ∈ L, countIn fs s L i ≤ nameBound fs s i) ∧
  (∀ b ∈ metaBlocks fs, s.blockUsed b = true) ∧
  (∀ i ∈ L, (s.inode i).isDir = false → (s.inode i).links = countIn fs s L i) ∧
  (∀ i < fs.inodesCount + 1, Ordinary fs i → i ∉ L → s.inodeUsed i = false) ∧
  ∀ d ∈ L, ((s.node d).entries.map RawEntry.name).Nodup

instance (fs : Ext2Fs) (s : Store) (xs : List ℕ) : Decidable (Checked fs s xs) :=
  inferInstanceAs (Decidable (_ ∧ _))

section Checked
variable (h : Checked fs s xs)
include h

theorem Checked.reach_iff : (treeOf fs s).Reach i ↔ i ∈ fs.rootIno :: xs :=
  h.1.1.reach_iff h.1.2.1

theorem Checked.nameCount_eq (i : ℕ) : nameCount fs s i = countIn fs s (fs.rootIno :: xs) i := by
  refine Rooted.indegree_eq_sum (fun a => h.reach_iff) h.1.2.2 (fun a ha => ?_) i
  exact Finset.mem_range.2 (Nat.lt_succ_of_le (h.2.1 a ha).valid.2)

theorem Checked.sound : Sound fs s := by
  have hreach : ∀ {i}, (treeOf fs s).Reach i → i ∈ fs.rootIno :: xs := h.reach_iff.1
  have hcount := h.nameCount_eq
  have hiff : ∀ i, ¬i ∈ fs.rootIno :: xs → ¬(treeOf fs s).Reach i := fun i hi hr => hi (hreach hr)
  obtain ⟨-, hnode, hdisj, hroot, hdot, hdotDot, hdotRoot, hbound, hmeta, -⟩ := h
  refine ⟨fun i hi => hnode i (hreach hi), fun i j hi hj hij b hb hb' => ?_, hroot,
    fun d hd => hdot d (hreach hd), fun d hd => hdotDot d (hreach hd), hdotRoot, fun i => ?_, hmeta⟩
  · exact hdisj i (hreach hi) j (hreach hj) hij b hb hb'
  by_cases hi : i ∈ fs.rootIno :: xs
  · rw [hcount]
    exact hbound i hi
  · rw [nameCount_eq_zero (hiff i hi)]
    exact Nat.zero_le _

end Checked

theorem consistent_of_checked (hmount : mountAt fs.startSector w.dev = .ok fs) (hlayout : Layout fs)
    (hdev : ∀ b < fs.blocksCount, OnDevice fs w.dev b) (h : Checked fs (storeAt fs w) xs) :
    Consistent fs w where
  mounted := hmount
  layout := hlayout
  onDevice := hdev
  sound := h.sound
  links i hi hdir := by
    have hcount := h.nameCount_eq i
    have hmem := h.reach_iff.1 hi
    obtain ⟨-, -, -, -, -, -, -, -, -, hlinks, -⟩ := h
    rw [hcount]
    exact hlinks i hmem hdir
  unnamed i hi hno := by
    have hmem : i ∉ fs.rootIno :: xs := fun hm => hno (h.reach_iff.2 hm)
    obtain ⟨-, -, -, -, -, -, -, -, -, -, hunnamed, -⟩ := h
    exact hunnamed i (Nat.lt_succ_of_le hi.1.2) hi hmem
  names d hd := by
    have hmem := h.reach_iff.1 hd
    obtain ⟨-, -, -, -, -, -, -, -, -, -, -, hnames⟩ := h
    exact hnames d hmem

def tinyFs : Ext2Fs where
  startSector := 0
  blockSize := 1024
  blocksCount := 16
  inodesCount := 16
  blocksPerGroup := 16
  inodesPerGroup := 16
  inodeSize := 128
  groups := [⟨3, 4, 5⟩]
  rootIno := 2

def tinySuperblock : Buf :=
  ((((Buf.zero.setU32 0 16).setU32 4 16).setU32 32 16).setU32 40 16).setU16 56 ext2Magic

def tinyDescriptors : Buf := ((Buf.zero.setU32 0 3).setU32 4 4).setU32 8 5

def tinyInode (mode links size : ℕ) (blocks : List ℕ) : Inode where
  mode := mode
  uid := 0
  gid := 0
  size := size
  atime := 0
  ctime := 0
  mtime := 0
  links := links
  blocks := fun i => blocks.getD i 0

def tinyTable (inodes : ℕ → Inode) (block : ℕ) : Buf := fun i =>
  let inode := inodes ((block - 5) * 8 + i / 128 + 1)
  encodeInode inode (2 * (inode.direct.filter (· ≠ 0)).length) (i % 128)

def tinyWorld (blockBits inodeBits : List UInt8) (inodes : ℕ → Inode) (data : ℕ → Buf) : World where
  dev := deviceOf 16 fun b =>
    if b = 1 then tinySuperblock
    else if b = 2 then tinyDescriptors
    else if b = 3 then Buf.ofList blockBits
    else if b = 4 then Buf.ofList inodeBits
    else if b = 5 ∨ b = 6 then tinyTable inodes b
    else data b
  wall := fun _ => 0
  fileTimestampCounter := 0

theorem consistent_tiny (h : mountAt 0 (tinyWorld blockBits inodeBits inodes data).dev = .ok tinyFs ∧
      Checked tinyFs (storeAt tinyFs (tinyWorld blockBits inodeBits inodes data)) xs) :
    Consistent tinyFs (tinyWorld blockBits inodeBits inodes data) := by
  refine consistent_of_checked h.1 (by decide) (fun b hb => ⟨?_, ?_⟩) h.2
  · change 0 + b * 2 + 1 < 32
    change b < 16 at hb
    omega
  change 0 + b * 2 + 1 ≤ 2 ^ 64 - 1
  change b < 16 at hb
  omega

end Ristux.Ext2
