import Ristux.Ext2.Tree

namespace Ristux.Ext2
open Lib Proc List Res Option

namespace Store

def linkTarget (s : Store) (i : ℕ) : Option Str :=
  match dataOf s.block (s.inode i) with
  | .ok bytes => fromUtf8 bytes
  | .error _ => none

def node (s : Store) (i : ℕ) : Node where
  isDir := (s.inode i).isDir
  link := if (s.inode i).isSymlink then some (s.linkTarget i) else none
  entries := if (s.inode i).isDir then dirEntries s.block (s.inode i) else []

/-- The pointer tree of inode `i`. -/
def refs (s : Store) (i : ℕ) : List ℕ := Ext2.refs s.block (s.inode i)

end Store

def treeOf (fs : Ext2Fs) (s : Store) : Tree := ⟨fs.rootIno, s.node⟩

structure NodeOk (fs : Ext2Fs) (s : Store) (i : ℕ) : Prop where
  valid : ValidIno fs i
  used : s.inodeUsed i = true
  refs : ∀ b ∈ s.refs i, DataBlock fs b ∧ s.blockUsed b = true
  nodup : (s.refs i).Nodup
  dir : (s.inode i).isDir = true → DirOk s.block (s.inode i)

/-- The inode that `path` names in the tree; a path has to start with a slash. -/
def Tree.lookup (t : Tree) (follow : Bool) (path : Str) : Option ℕ :=
  if path.head? = some '/' then t.resolve follow 8 (partsOf path) else none

/-- `r` is the result of a lookup that finds `o`. -/
def Finds (s : Store) (r : R (ℕ × Inode)) (o : Option ℕ) : Prop :=
  match o with
  | some i => r = .ok (i, s.inode i)
  | none => ∃ e, r = err e

theorem dataOf_ne_panic (d : Disk) (inode : Inode) : dataOf d inode ≠ .error .panic := by
  unfold dataOf
  split_ifs <;> simp

section Lookup
variable (h : Layout fs) (hw : At fs s w) (hok : ∀ i, (treeOf fs s).Reach i → NodeOk fs s i)
include h hw hok

theorem readDirEntries_at (hi : (treeOf fs s).Reach i) (hdir : (s.inode i).isDir = true) :
    readDirEntries fs (s.inode i) w.dev =
    .ok ((dirEntries s.block (s.inode i)).filterMap RawEntry.decode) :=
  readDirEntries_of_data ((hok i hi).dir hdir)
    (readInodeData_at h hw fun b hb => ((hok i hi).refs b hb).1)

theorem readSymlinkString_at (hi : (treeOf fs s).Reach i) :
    match s.linkTarget i with
    | some target => readSymlinkString fs (s.inode i) w.dev = .ok target
    | none => ∃ e, readSymlinkString fs (s.inode i) w.dev = err e := by
  rw [readSymlinkString, readInodeData_at h hw fun b hb => ((hok i hi).refs b hb).1,
    Store.linkTarget]
  have hpanic := dataOf_ne_panic s.block (s.inode i)
  rcases hdata : dataOf s.block (s.inode i) with (e | _) | bytes
  · exact ⟨e, rfl⟩
  · exact absurd hdata hpanic
  dsimp only
  rw [ok_bind]
  rcases fromUtf8 bytes with _ | target
  · exact ⟨_, rfl⟩
  · rfl

omit h hw hok in
/-- Searching all entries for a plain name is searching the real ones. -/
theorem find_real (es : List RawEntry) (hc : Plain c) :
    (es.filter fun e => ¬e.Dots).find? (fun e => e.name = asBytes c) =
      es.find? fun e => e.name = asBytes c := by
  rw [find?_filter]
  congr 1
  funext e
  by_cases hn : e.name = asBytes c
  · have : ¬e.Dots := by
      rintro (hd | hd)
      · exact hc.2.1 (asBytes_injective (hn.symm.trans hd))
      · exact hc.2.2.1 (asBytes_injective (hn.symm.trans hd))
    simp [hn, this]
  · simp [hn]

theorem walkPath_finds (hrestart : ∀ parts, (∀ p ∈ parts, Plain p) →
      Finds s (restart (componentsToPath parts)) (restart' parts))
    (hwalked : ∀ p ∈ walked, Plain p) (hparts : ∀ p ∈ parts, Plain p) (hi : (treeOf fs s).Reach i) :
    Finds s (walkPath fs w.dev follow restart walked parts i (s.inode i))
    ((treeOf fs s).walk follow restart' walked parts i) := by
  induction parts generalizing walked i with
  | nil => rfl
  | cons c rest ih =>
    have hc := hparts c mem_cons_self
    have hrest : ∀ p ∈ rest, Plain p := (forall_mem_cons.1 hparts).2
    have hwalked' : ∀ p ∈ walked ++ [c], Plain p := by
      intro p hp
      rcases mem_append.1 hp with hp | hp
      · exact hwalked p hp
      · rw [mem_singleton.1 hp]
        exact hc
    rw [walkPath, Tree.walk]
    change Finds s _ (if (s.inode i).isDir = true then _ else _)
    by_cases hdir : (s.inode i).isDir = true
    · rw [if_neg (by simp [hdir]), if_pos hdir, readDirEntries_at h hw hok hi hdir, ok_bind,
        find_decode]
      have hfind : (treeOf fs s).find i c = ((dirEntries s.block (s.inode i)).find? fun e =>
          e.name = asBytes c).map RawEntry.ino := by
        rw [Tree.find, Node.real, find_real _ hc]
        simp only [treeOf, Store.node, if_pos hdir]
      rw [hfind]
      rcases hf : (dirEntries s.block (s.inode i)).find? fun e => e.name = asBytes c with _ | e
      · rw [hf]
        exact ⟨_, rfl⟩
      rw [hf]
      have hj : (treeOf fs s).Reach e.ino :=
        hi.step (Tree.find_succ hdir (by rw [hfind, hf]; rfl))
      simp only [map_some, okOr_some, ok_bind, bind_some]
      rw [readInode_eq h hw (hok _ hj).valid, ok_bind]
      have hlink : ((treeOf fs s).node e.ino).link =
        if (s.inode e.ino).isSymlink then some (s.linkTarget e.ino) else none := rfl
      rw [hlink]
      by_cases hsym : (s.inode e.ino).isSymlink = true
      · rw [if_pos hsym]
        dsimp only
        by_cases hfollow : follow = true ∨ rest ≠ []
        · rw [if_pos ⟨hsym, hfollow⟩, if_pos hfollow]
          have htarget := readSymlinkString_at h hw hok hj
          rcases ht : s.linkTarget e.ino with _ | target
          · rw [ht] at htarget
            obtain ⟨err, herr⟩ := htarget
            rw [herr]
            exact ⟨err, rfl⟩
          · rw [ht] at htarget
            rw [htarget, ok_bind, normalize_redirect target hwalked hrest, ok_bind]
            exact hrestart _ (plain_redirectParts hwalked hrest)
        · rw [if_neg fun hc => hfollow hc.2, if_neg hfollow]
          exact ih hwalked' hrest hj
      · rw [if_neg hsym, if_neg fun hc => hsym hc.1]
        exact ih hwalked' hrest hj
    · rw [if_pos (by simp [hdir]), if_neg hdir]
      exact ⟨_, rfl⟩

theorem lookupPathInner_finds (follow : Bool) (depth : ℕ) (hhead : path.head? = some '/') :
    Finds s (lookupPathInner fs w.dev follow depth path)
      ((treeOf fs s).resolve follow depth (partsOf path)) := by
  induction depth generalizing path with
  | zero => exact ⟨_, rfl⟩
  | succ depth ih =>
    have hplain : ∀ p ∈ partsOf path, Plain p := fun p hp => plain_partsOf hp
    have hroot : readInode fs fs.rootIno w.dev = .ok (s.inode fs.rootIno) :=
      readInode_eq h hw (hok _ Rooted.reach_root).valid
    rw [lookupPathInner, normalizeExt2Path_of_head hhead, ok_bind]
    dsimp only
    rw [hroot, ok_bind, trimSlash_componentsToPath hplain]
    have hrestart : ∀ parts, (∀ p ∈ parts, Plain p) →
        Finds s (lookupPathInner fs w.dev follow depth (componentsToPath parts))
          ((treeOf fs s).resolve follow depth parts) := by
      intro parts hp
      have := @ih (componentsToPath parts) rfl
      rwa [partsOf_componentsToPath hp] at this
    split_ifs with hempty
    · have hnil : partsOf path = [] := by
        have := partsOf_componentsToPath hplain
        rw [componentsToPath, hempty] at this
        exact this.symm
      rw [hnil]
      rfl
    · rw [filter_splitSlash_joinSlash hplain]
      exact walkPath_finds h hw hok hrestart (by simp) hplain Rooted.reach_root

omit h hw hok in
theorem lookupPathInner_noSlash (hhead : path.head? ≠ some '/') :
    lookupPathInner fs dev follow depth path = err .notFound := by
  cases depth with
  | zero => rfl
  | succ depth => rw [lookupPathInner, normalizeExt2Path, if_pos hhead]; rfl

theorem lookupPathInner_at (follow : Bool) (path : Str) :
    Finds s (lookupPathInner fs w.dev follow 8 path) ((treeOf fs s).lookup follow path) := by
  unfold Tree.lookup
  split_ifs with hhead
  · exact lookupPathInner_finds h hw hok follow 8 hhead
  · exact ⟨_, lookupPathInner_noSlash hhead⟩

end Lookup

end Ristux.Ext2
