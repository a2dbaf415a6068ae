import Ristux.Ext2.Rename
import Ristux.Ext2.WriteFile

-- Every operation keeps the invariant from which block ownership follows, except two that give up
-- half way: a write that has freed the old blocks before it fails, and a rename that has added
-- the new name before it finds that it cannot remove the old one.

namespace Ristux.Ext2
open Lib Proc

inductive Call where
  | createFile (path : Str) (uid gid : UInt32) (mode : UInt16)
  | createDir (path : Str) (uid gid : UInt32) (mode : UInt16)
  | writeFile (path : Str) (data : List UInt8)
  | truncateFile (path : Str)
  | symlink (target linkPath : Str) (uid gid : UInt32)
  | link (oldPath newPath : Str)
  | unlink (path : Str)
  | rmdir (path : Str)
  | rename (oldPath newPath : Str)

def Call.exec (fs : Ext2Fs) : Call → M Unit
  | .createFile path uid gid mode => Ext2.createFile fs path uid gid mode
  | .createDir path uid gid mode => Ext2.createDir fs path uid gid mode
  | .writeFile path data => Ext2.writeFile fs path data
  | .truncateFile path => Ext2.truncateFile fs path
  | .symlink target linkPath uid gid => Ext2.symlink fs target linkPath uid gid
  | .link oldPath newPath => Ext2.link fs oldPath newPath
  | .unlink path => Ext2.unlink fs path
  | .rmdir path => Ext2.rmdir fs path
  | .rename oldPath newPath => Ext2.rename fs oldPath newPath

/-- One call after another, whatever each of them returns; `ok` restricts the calls by the
state they are made in. -/
inductive Run (fs : Ext2Fs) (ok : Call → World → Prop) (w : World) : World → Prop
  | refl : Run fs ok w w
  | step {w' : World} (call : Call) (hrun : Run fs ok w w') (hok : ok call w') :
    Run fs ok w (call.exec fs w').2

/-- The store that a device holds. -/
def storeAt (fs : Ext2Fs) (w : World) : Store := storeOf fs (diskOf fs w.dev)

/-- An image that a file system check would accept. -/
structure Consistent (fs : Ext2Fs) (w : World) : Prop where
  mounted : mountAt fs.startSector w.dev = .ok fs
  layout : Layout fs
  onDevice : ∀ b < fs.blocksCount, OnDevice fs w.dev b
  sound : Sound fs (storeAt fs w)
  links : ∀ i, (treeOf fs (storeAt fs w)).Reach i → ((storeAt fs w).inode i).isDir = false →
    ((storeAt fs w).inode i).links = nameCount fs (storeAt fs w) i
  unnamed : ∀ i, Ordinary fs i → ¬(treeOf fs (storeAt fs w)).Reach i →
    (storeAt fs w).inodeUsed i = false
  names : ∀ d, (treeOf fs (storeAt fs w)).Reach d →
    (((storeAt fs w).node d).entries.map RawEntry.name).Nodup

theorem Consistent.at (h : Consistent fs w) : At fs (storeAt fs w) w :=
  ⟨h.onDevice, rfl⟩

/-- The file `i` loses no block that it still refers to when `data` cannot be written: there
is room for the data, the file has no blocks, or it has no pointer blocks and all blocks
are taken again in the attempt. -/
def SafeWrite (fs : Ext2Fs) (s : Store) (i : ℕ) (data : List UInt8) : Prop :=
  Writable fs s i data ∨ s.refs i = [] ∨ (DataFits data ∧ ∀ k, 12 ≤ k → (s.inode i).blocks k = 0)

def Call.Safe (fs : Ext2Fs) (s : Store) : Call → Prop
  | .writeFile path data => ∀ i, (treeOf fs s).lookup true path = some i →
      (s.inode i).isFile → SafeWrite fs s i data
  | .rename oldPath _ => ∀ ps c, partsOf oldPath = ps ++ [c] → InFirstBlock fs s c
  | _ => True

section Steps
variable {fs : Ext2Fs} (h : Layout fs) {s : Store} (hs : Sound fs s)
include h hs

/-- The operation ends without a panic and keeps the invariant. -/
def KeepsSound (fs : Ext2Fs) (s : Store) (x : M Unit) : Prop :=
  Does (At fs) x s (Either (fun _ s' => Sound fs s') fun _ s' => Sound fs s')

theorem createFile_sound (path : Str) (uid gid : UInt32) (mode : UInt16) :
    KeepsSound fs s (createFile fs path uid gid mode) := by
  refine (createFile_does h hs path uid gid mode).mono_either ?_ ?_
  · rintro _ s' ⟨-, p, c, x, inode, hfile, hblank, hc⟩
    exact hc.sound hs (newNode_file hc.ordinary hfile hblank)
  · exact fun _ s' hidle => hidle.toGrown.sound hs

theorem createDir_sound (path : Str) (uid gid : UInt32) (mode : UInt16) :
    KeepsSound fs s (createDir fs path uid gid mode) := by
  refine (createDir_does h hs path uid gid mode).mono_either ?_ ?_
  · rintro _ s' ⟨-, p, c, x, b, inode, s₂, now, hb, hfree, hon, hc, rfl⟩
    have hok := hs.node p hc.parent.reach
    have hs₂ := hc.sound hs (newNode_dir h hc.ordinary hok.valid hb hfree hon)
    have hin : s₂.inode p = s.inode p := by
      obtain ⟨A, B, -, hr⟩ := hc.added
      rw [hr.inode, hc.grown.inode p hok.used]
    exact hs₂.setInode_dir (hin ▸ hc.parent.dir) (hin ▸ ⟨rfl, rfl, rfl⟩)
  · exact fun _ s' hidle => hidle.toGrown.sound hs

theorem symlink_sound (target linkPath : Str) (uid gid : UInt32) :
    KeepsSound fs s (symlink fs target linkPath uid gid) := by
  refine (symlink_does h hs target linkPath uid gid).mono_either ?_ ?_
  · rintro _ s' ⟨-, -, p, c, x, inode, inode', N, s₁, hlink, hblank, htook, hwrote, hc⟩
    exact hc.sound hs (newNode_symlink hc.ordinary hlink hblank htook hwrote)
  rintro _ s' (⟨hidle, -⟩ | ⟨-, N, htook, -⟩)
  · exact hidle.toGrown.sound hs
  · exact htook.grown.sound hs

theorem link_sound (oldPath newPath : Str) : KeepsSound fs s (link fs oldPath newPath) := by
  refine (link_does h hs oldPath newPath).mono_either ?_ ?_
  · rintro _ s' ⟨-, i, p, c, s₁, now, hi, hfile, hp, hadd, rfl⟩
    exact hadd.link_sound hs hp (Tree.lookup_reach hi) hfile
  · rintro _ s' rfl
    exact hs

theorem unlink_sound (path : Str) : KeepsSound fs s (unlink fs path) := by
  refine (unlink_does h hs path).mono_either ?_ ?_
  · rintro _ s' ⟨p, c, i, hu, hun⟩
    exact hun.sound hs hu
  · rintro _ s' ⟨rfl, -⟩
    exact hs

theorem rmdir_sound (path : Str) : KeepsSound fs s (rmdir fs path) := by
  refine (rmdir_does h hs path).mono_either ?_ ?_
  · rintro _ s' ⟨p, c, i, s₁, hp, -, hdir, -, hrem, rfl⟩
    exact hrem.rmdir_sound hs hp hdir ⟨rfl, rfl, rfl⟩
  rintro _ s' (rfl | ⟨p, c, x, hp, hrem⟩)
  · exact hs
  · exact hrem.sound hs hp.reach hp.dir (hp.not_dots x)

theorem rename_sound (hfirst : ∀ ps c, partsOf old = ps ++ [c] → InFirstBlock fs s c) :
    KeepsSound fs s (rename fs old new) :=
  (rename_does h hs old new).mono_either (fun _ _ hr => hr.sound hs) fun _ _ hr =>
    hr.sound hs hfirst

theorem writeFile_sound
    (hsafe : ∀ i, (treeOf fs s).lookup true path = some i → (s.inode i).isFile →
      SafeWrite fs s i data) :
    KeepsSound fs s (writeFile fs path data) := by
  refine (writeFile_does h hs path data).mono_either ?_ ?_
  · rintro _ s' ⟨i, N, s₁, inode', hi, hfile, -, htook, hwrote, rfl⟩
    exact hwrote.sound hs (Tree.lookup_reach hi) htook hfile
  rintro _ s' (⟨rfl, -⟩ | ⟨i, N, hi, hfile, hnot, htook, hout⟩)
  · exact hs
  have hreach := Tree.lookup_reach hi
  rcases hsafe i hi hfile with hw | hnil | ⟨hfits, hdirect⟩
  · exact absurd hw hnot
  · rw [freed, hnil, Store.markAll_nil] at htook
    exact htook.grown.sound hs
  · obtain ⟨-, hfull⟩ := hout.resolve_right fun hlarge => hlarge.1 hfits
    exact htook.sound_of_direct hs hreach hfile hdirect hfull

omit h hs in
theorem writable_nil : Writable fs s i [] :=
  ⟨Nat.zero_le _, Nat.zero_le _⟩

theorem exec_sound {call : Call} (hsafe : call.Safe fs s) : KeepsSound fs s (call.exec fs) := by
  cases call with
  | createFile path uid gid mode => exact createFile_sound h hs path uid gid mode
  | createDir path uid gid mode => exact createDir_sound h hs path uid gid mode
  | writeFile path data => exact writeFile_sound h hs hsafe
  | truncateFile path => exact writeFile_sound h hs fun i _ _ => .inl writable_nil
  | symlink target linkPath uid gid => exact symlink_sound h hs target linkPath uid gid
  | link oldPath newPath => exact link_sound h hs oldPath newPath
  | unlink path => exact unlink_sound h hs path
  | rmdir path => exact rmdir_sound h hs path
  | rename oldPath newPath => exact rename_sound h hs hsafe

end Steps

/-- A run in which every call is safe keeps the invariant. -/
theorem run_sound (h : Layout fs) (hsafe : ∀ call v, ok call v → call.Safe fs (storeAt fs v))
    (hdev : ∀ b < fs.blocksCount, OnDevice fs w.dev b) (hs : Sound fs (storeAt fs w))
    (hrun : Run fs ok w w') : At fs (storeAt fs w') w' ∧ Sound fs (storeAt fs w') := by
  induction hrun with
  | refl => exact ⟨⟨hdev, rfl⟩, hs⟩
  | step call _ hok ih =>
    obtain ⟨hw, hs'⟩ := ih
    obtain ⟨s₁, hw₁, hout⟩ := exec_sound h hs' (hsafe call _ hok) _ hw
    have heq : storeAt fs (call.exec fs _).2 = s₁ := hw₁.2
    rw [heq]
    refine ⟨hw₁, ?_⟩
    rcases hr : (call.exec fs _).1 with (e | _) | a
    · rw [hr] at hout
      exact hout
    · rw [hr] at hout
      exact hout.elim
    · rw [hr] at hout
      exact hout

end Ristux.Ext2
