import Ristux.Ext2.Check

-- Over runs of safe calls no block belongs to two inodes, to an inode and the metadata, or to an
-- inode and the free list.

namespace Ristux.Ext2
open Lib Proc

/-- Some entry of a directory of the tree names inode `i`. -/
def Named (fs : Ext2Fs) (s : Store) (i : ℕ) : Prop :=
  ∃ d, (treeOf fs s).Reach d ∧ ∃ e ∈ (s.node d).entries, e.ino = i

structure BlocksOwned (fs : Ext2Fs) (s : Store) : Prop where
  once : ∀ i, Named fs s i → (s.refs i).Nodup
  apart : ∀ i j, Named fs s i → Named fs s j → i ≠ j → ∀ b ∈ s.refs i, b ∉ s.refs j
  notMeta : ∀ i, Named fs s i → ∀ b ∈ s.refs i, b ∉ metaBlocks fs
  used : ∀ i, Named fs s i → ∀ b ∈ s.refs i, s.blockUsed b = true

variable {fs : Ext2Fs}

/-- The entries `.` and `..` lead to inodes of the tree as well. -/
theorem Sound.reach_of_named (hs : Sound fs s) (hi : Named fs s i) : (treeOf fs s).Reach i := by
  obtain ⟨d, hd, e, he, rfl⟩ := hi
  by_cases hdots : e.Dots
  · rcases hdots with hdot | hdotDot
    · rw [hs.dotSelf d hd e he hdot]
      exact hd
    rcases hd.cases with rfl | ⟨p, hp, hdp⟩
    · rw [hs.dotDotRoot e he hdotDot]
      exact reach_rootIno
    · rw [hs.dotDotParent p hp d hdp e he hdotDot]
      exact hp
  refine hd.step ?_
  have hdir : ((treeOf fs s).node d).isDir = true := by
    by_contra hno
    have hfalse : (s.inode d).isDir = false := Bool.eq_false_iff.2 hno
    rw [node_entries_of_not_dir hfalse] at he
    cases he
  rw [Tree.succ, if_pos hdir]
  exact List.mem_map.2 ⟨e, List.mem_filter.2 ⟨he, by simpa using hdots⟩, rfl⟩

theorem Sound.blocksOwned (hs : Sound fs s) : BlocksOwned fs s where
  once i hi := (hs.node i (hs.reach_of_named hi)).nodup
  apart i j hi hj hij _ hb hb' :=
    hs.disjoint i j (hs.reach_of_named hi) (hs.reach_of_named hj) hij hb hb'
  notMeta i hi b hb := ((hs.node i (hs.reach_of_named hi)).refs b hb).1.2
  used i hi b hb := ((hs.node i (hs.reach_of_named hi)).refs b hb).2

/-- Block ownership after every run in which no write gives up blocks it still refers to and
no rename fails to find the old name. -/
theorem run_blocksOwned {w w' : World} (hc : Consistent fs w)
    (hrun : Run fs (fun call v => call.Safe fs (storeAt fs v)) w w') :
    BlocksOwned fs (storeAt fs w') :=
  (run_sound hc.layout (fun _ _ h => h) hc.onDevice hc.sound hrun).2.blocksOwned

/-- The root directory has two blocks; the only name in it, `a`, is in the second one. -/
def splitRoot : World := tinyWorld [0xff, 0x03] [0xff, 0x07]
  (fun i => if i = 2 then tinyInode 0o40755 2 2048 [7, 8]
    else if i = 11 then tinyInode 0o100644 1 1 [9] else tinyInode 0 0 0 [])
  fun b => if b = 7 then dotsBlock 2 2
    else if b = 8 then putRecord Buf.zero 0 11 1024 (asBytes ['a']) ext2FtRegFile else Buf.zero

theorem consistent_splitRoot : Consistent tinyFs splitRoot :=
  @consistent_tiny _ _ _ _ [11] (by decide +kernel)

theorem run_blocksOwned_splitRoot : BlocksOwned tinyFs
    (storeAt tinyFs ((Call.createFile ['/', 'b'] 0 0 0o644).exec tinyFs splitRoot).2) :=
  run_blocksOwned consistent_splitRoot (Run.refl.step _ trivial)

/-- `rename /a /b`, which fails, and then `unlink /b`. -/
def splitRootUnlinked : World :=
  ((Call.unlink ['/', 'b']).exec tinyFs
    ((Call.rename ['/', 'a'] ['/', 'b']).exec tinyFs splitRoot).2).2

/-- The rename adds the name `b` and then does not find `a`; the unlink frees the block of the
file that `a` still names. -/
theorem rename_unlink_frees_named_block : Consistent tinyFs splitRoot ∧
    Run tinyFs (fun _ _ => True) splitRoot splitRootUnlinked ∧
    ¬BlocksOwned tinyFs (storeAt tinyFs splitRootUnlinked) := by
  refine ⟨consistent_splitRoot, (Run.refl.step _ trivial).step _ trivial, fun h => ?_⟩
  have heval : ⟨11, asBytes ['a']⟩ ∈ ((storeAt tinyFs splitRootUnlinked).node 2).entries ∧
      9 ∈ (storeAt tinyFs splitRootUnlinked).refs 11 ∧
      (storeAt tinyFs splitRootUnlinked).blockUsed 9 = false := by decide +kernel
  obtain ⟨hentry, hblock, hfree⟩ := heval
  have hused := h.used 11 ⟨2, reach_rootIno, _, hentry, rfl⟩ 9 hblock
  rw [hfree] at hused
  cases hused

theorem readFile_eq (h : Layout fs) (hw : At fs s w) (hs : Sound fs s)
    (hi : (treeOf fs s).lookup true path = some i) : readFile fs path w.dev =
      if (s.inode i).isFile then dataOf s.block (s.inode i) else Res.err .notFile := by
  have hfind : lookupPath fs path w.dev = .ok (i, s.inode i) :=
    (congrArg (Finds s _) hi).mp (lookupPathInner_at h hw hs.node true path)
  have hok := hs.node i (Tree.lookup_reach hi)
  rw [readFile, hfind, Res.ok_bind, ← readInodeData_at h hw fun b hb => (hok.refs b hb).1]
  dsimp only
  cases (s.inode i).isFile <;> simp

section
variable {w w' : World} (hc : Consistent fs w)
  (hrun : Run fs (fun call v => call.Safe fs (storeAt fs v)) w w')
include hc hrun

/-- The next call does not panic, even if it is not safe. -/
theorem run_ne_panic (call : Call) : (call.exec fs w').1 ≠ .error .panic := by
  obtain ⟨hw, hs⟩ := run_sound hc.layout (fun _ _ h => h) hc.onDevice hc.sound hrun
  have hends : ∀ {x : M Unit} {A E}, Does (At fs) x (storeAt fs w') (Either A E) →
      (x w').1 ≠ .error .panic := by
    intro x A E hx hpanic
    obtain ⟨_, -, hout⟩ := hx w' hw
    rw [hpanic] at hout
    exact hout
  cases call with
  | writeFile path data => exact hends (writeFile_does hc.layout hs path data)
  | rename old new => exact hends (rename_does hc.layout hs old new)
  | _ => exact hends (exec_sound hc.layout hs trivial)

/-- A file reads back as it was written, under each of its names, and no other file changes. -/
theorem run_writeFile_readFile (hwrite : writeFile fs path data w' = (.ok (), v)) (other : Str)
    (j : ℕ) (hj : (treeOf fs (storeAt fs w')).lookup true other = some j) :
    readFile fs other v.dev =
      if (treeOf fs (storeAt fs w')).lookup true path = some j then .ok data
      else readFile fs other w'.dev := by
  obtain ⟨hw, hs⟩ := run_sound hc.layout (fun _ _ h => h) hc.onDevice hc.sound hrun
  obtain ⟨s', hv, hout⟩ := writeFile_does hc.layout hs path data w' hw
  rw [hwrite] at hv hout
  obtain ⟨i, N, s₁, inode, hi, hfile, -, htook, hwrote, rfl⟩ := hout
  have hreach := Tree.lookup_reach hi
  obtain ⟨now, -, hrec⟩ := hwrote.record
  have hfile' : inode.isFile = true := hrec ▸ hfile
  have htree := rewrite_sameTree hs hreach htook hfile hfile'
  have hj' : (treeOf fs (s₁.setInode i inode)).lookup true other = some j := by
    rw [← hj, Tree.lookup, Tree.lookup, htree.resolve_eq]
  rw [readFile_eq hc.layout hv (hwrote.sound hs hreach htook hfile) hj', hi]
  -- the file that was written, or one whose blocks were not touched
  by_cases hij : j = i
  · rw [hij, Store.setInode_self, if_pos hfile', if_pos rfl]
    exact hwrote.content
  have hsame := rewrite_sameNode hs hreach htook inode (Tree.lookup_reach hj) hij
  rw [hsame.dataOf, Store.setInode_of_ne _ _ hij, htook.inode,
    if_neg fun h => hij (Option.some.inj h).symm, readFile_eq hc.layout hw hs hj]
  rfl

end

theorem run_ne_panic_splitRoot : ((Call.rename ['/', 'a'] ['/', 'b']).exec tinyFs splitRoot).1 ≠
    .error .panic :=
  run_ne_panic consistent_splitRoot .refl _

theorem run_writeFile_readFile_splitRoot :
    readFile tinyFs ['/', 'a'] (writeFile tinyFs ['/', 'a'] [7] splitRoot).2.dev = .ok [7] :=
  (run_writeFile_readFile consistent_splitRoot .refl (eq_of_ok (by decide +kernel)) ['/', 'a'] 11
    (by decide +kernel)).trans (if_pos (by decide +kernel))

end Ristux.Ext2
