import Ristux.Ext2.Remove

namespace Ristux.Ext2
open Lib Proc List Finset Store

variable {fs : Ext2Fs} {s : Store} {i j : ℕ}

theorem card_freeSet_markAll (hnodup : N.Nodup)
    (hN : ∀ b ∈ N, b < fs.blocksCount ∧ s.blockUsed b = true) :
    (freeSet fs (s.markAll N false)).card = (freeSet fs s).card + N.length := by
  have heq : freeSet fs (s.markAll N false) = freeSet fs s ∪ N.toFinset := by
    ext b
    rw [mem_union, mem_freeSet, mem_freeSet, mem_toFinset]
    change b < fs.blocksCount ∧ (if b ∈ N then false else s.blockUsed b) = false ↔ _
    by_cases hb : b ∈ N
    · simp [hb, (hN b hb).1]
    · simp [hb]
  have hdisj : Disjoint (freeSet fs s) N.toFinset := by
    rw [Finset.disjoint_left]
    intro b hb hbN
    rw [mem_freeSet, (hN b (mem_toFinset.1 hbN)).2] at hb
    exact absurd hb.2 (by simp)
  rw [heq, card_union_of_disjoint hdisj, toFinset_card_of_nodup hnodup]

/-- The store after the blocks of inode `i` have been given back. -/
def freed (s : Store) (i : ℕ) : Store := s.markAll (s.refs i) false

theorem card_freeSet_freed (hok : NodeOk fs s i) :
    (freeSet fs (freed s i)).card = (freeSet fs s).card + (s.refs i).length :=
  card_freeSet_markAll hok.nodup fun b hb => ⟨(hok.refs b hb).1.1, (hok.refs b hb).2⟩

/-- What `write_file` needs to succeed on the file `i`. -/
structure Writable (fs : Ext2Fs) (s : Store) (i : ℕ) (data : List UInt8) : Prop where
  fits : DataFits data
  space : dataCost data ≤ (freeSet fs s).card + (s.refs i).length

theorem writeFile_does (h : Layout fs) (hs : Sound fs s) (path : Str) (data : List UInt8) :
    Does (At fs) (writeFile fs path data) s (Either
      (fun _ s' => ∃ i N s₁ inode', (treeOf fs s).lookup true path = some i ∧
        (s.inode i).isFile = true ∧ Writable fs s i data ∧ Took fs (freed s i) N s₁ ∧
        Wrote (s.inode i) data N s₁ inode' ∧ s' = s₁.setInode i inode')
      fun _ s' => (s' = s ∧ ∀ i, (treeOf fs s).lookup true path = some i →
          (s.inode i).isFile = false) ∨
        ∃ i N, (treeOf fs s).lookup true path = some i ∧ (s.inode i).isFile = true ∧
          ¬Writable fs s i data ∧ Took fs (freed s i) N s' ∧
          ((DataFits data ∧ freeSet fs s' = ∅) ∨ (¬DataFits data ∧ s' = freed s i))) := by
  refine Does.assume (fun w hw => hw.inode_read) fun hread => ?_
  refine lookup_does h hs.node true (fun hno _ => .inl ⟨rfl, ?_⟩) fun i hi => ?_
  · simp [hno]
  dsimp only
  by_cases hfile : (s.inode i).isFile = true
  · have hok := hs.node i (Tree.lookup_reach hi)
    have hcard := card_freeSet_freed hok
    rw [if_neg (by simp [hfile])]
    refine (writeInodeData_does h hs.metaUsed data fun b hb => (hok.refs b hb).1).bind_either ?_ ?_
    · rintro inode' s₁ ⟨N, htook, hwrote, hfits, hspace⟩
      have hfile' : inode'.isFile = true := by
        obtain ⟨now, -, heq⟩ := hwrote.record
        rw [heq]
        exact hfile
      refine (writeInode_does h hok.valid (hwrote.fits (hread i).1 hfits)).mono ?_
      rintro r s' ⟨rfl, rfl⟩
      rw [Inode.stored_of_isFile hfile']
      refine ⟨i, N, s₁, inode', hi, hfile, ⟨hfits, ?_⟩, htook, hwrote, rfl⟩
      rw [← hcard]
      exact Nat.le.intro ((Nat.add_comm _ _).trans hspace)
    rintro e s₁ ⟨N, htook, hout⟩
    refine .inr ⟨i, N, hi, hfile, fun hw => ?_, htook, ?_⟩
    · rcases hout with ⟨-, hshort, -⟩ | ⟨hlarge, -⟩
      · have := hw.space
        rw [← hcard] at this
        exact absurd hshort (Nat.not_lt.2 this)
      · exact hlarge hw.fits
    · exact hout.imp (fun h => ⟨h.1, h.2.2⟩) id
  · rw [if_pos (by simp [hfile])]
    refine Does.fail (.inl ⟨rfl, fun j hj => ?_⟩)
    cases hi.symm.trans hj
    simpa using hfile

variable {inode : Inode}

theorem kind_of_isFile (h : inode.isFile = true) : inode.isDir = false ∧ inode.isSymlink = false := by
  simp only [Inode.isFile, Inode.isDir, Inode.isSymlink, decide_eq_true_eq,
    decide_eq_false_iff_not] at h ⊢
  rw [h]
  decide

/-- Path lookup sees nothing of a regular file. -/
theorem node_of_isFile (h : (s.inode i).isFile = true) : s.node i = ⟨false, none, []⟩ := by
  obtain ⟨hdir, hlink⟩ := kind_of_isFile h
  simp [node, hdir, hlink]

section Rewrite
variable (hs : Sound fs s) (hi : (treeOf fs s).Reach i) (htook : Took fs (freed s i) N s₁)
include hs hi htook

/-- The blocks of another inode are not touched. -/
theorem rewrite_other (hj : (treeOf fs s).Reach j) (hji : j ≠ i) (hb : b ∈ s.refs j) :
    b ∉ N ∧ s₁.blockUsed b = true ∧ s₁.block b = s.block b := by
  have hbi : b ∉ s.refs i := fun hbi => hs.disjoint j i hj hi hji hb hbi
  have hused : (freed s i).blockUsed b = true := (if_neg hbi).trans ((hs.node j hj).refs b hb).2
  have hbN : b ∉ N := by
    intro hbN
    rw [(htook.free b hbN).2] at hused
    cases hused
  exact ⟨hbN, by rw [htook.used, hused, Bool.true_or], htook.block b hbN⟩

theorem rewrite_sameNode (inode : Inode) (hj : (treeOf fs s).Reach j) (hji : j ≠ i) :
    SameNode s (s₁.setInode i inode) j where
  shape := by
    rw [(setInode_of_ne _ _ hji).trans (congrFun htook.inode j)]
    exact Inode.SameShape.refl _
  block b hb := (rewrite_other hs hi htook hj hji hb).2.2

variable (hfile : (s.inode i).isFile = true)
include hfile

theorem rewrite_sameTree (hfile' : inode.isFile = true) : SameTree fs s (s₁.setInode i inode) := by
  refine ⟨fun j hj => ?_⟩
  by_cases hji : j = i
  · subst hji
    rw [node_of_isFile hfile, node_of_isFile (by rw [setInode_self]; exact hfile')]
  · exact (rewrite_sameNode hs hi htook inode hj hji).node

theorem rewrite_sound (hfile' : inode.isFile = true) (hlinks : inode.links = (s.inode i).links)
    (hrefs : ∀ b ∈ refs s₁.block inode, DataBlock fs b ∧ s₁.blockUsed b = true ∧
      (b ∈ N ∨ b ∈ s.refs i)) (hnodup : (refs s₁.block inode).Nodup) :
    Sound fs (s₁.setInode i inode) := by
  have hself : (s₁.setInode i inode).inode i = inode := setInode_self _ _ _
  have hother : ∀ j, j ≠ i → (s₁.setInode i inode).inode j = s.inode j := fun j hji =>
    (setInode_of_ne _ _ hji).trans (congrFun htook.inode j)
  have hsame : ∀ j, (treeOf fs s).Reach j → j ≠ i → SameNode s (s₁.setInode i inode) j :=
    fun j hj hji => rewrite_sameNode hs hi htook inode hj hji
  have hrefs_i : (s₁.setInode i inode).refs i = refs s₁.block inode := by rw [Store.refs, hself]; rfl
  have hdisj : ∀ j, (treeOf fs s).Reach j → j ≠ i →
      List.Disjoint (refs s₁.block inode) (s.refs j) := by
    intro j hj hji b hb hbj
    rcases (hrefs b hb).2.2 with hbN | hbi
    · exact (rewrite_other hs hi htook hj hji hbj).1 hbN
    · exact hs.disjoint j i hj hi hji hbj hbi
  have htree := rewrite_sameTree hs hi htook hfile hfile'
  have hmeta : MetaUsed fs s₁ := fun b hb => htook.grown.blockUsed b
    (hs.metaUsed.markAll (fun b hb => ((hs.node i hi).refs b hb).1) false b hb)
  have hup := htree.soundUpTo hs (fun j hj => ?_) (fun j k hj hk hjk => ?_) hmeta
  · refine hup.rebound fun j _ => ?_
    by_cases hji : j = i
    · subst hji
      have hroot := hs.ne_root (kind_of_isFile hfile).1
      rw [nameBound_of_not_dir hroot (kind_of_isFile hfile).1,
        nameBound_of_not_dir hroot (by rw [hself]; exact (kind_of_isFile hfile').1), hself, hlinks]
    · exact (nameBound_congr (hother j hji)).ge
  · by_cases hji : j = i
    · subst hji
      have hok := hs.node j hj
      refine ⟨hok.valid, ?_, fun b hb => ?_, ?_, fun hdir => ?_⟩
      · exact (congrFun htook.inodeUsed j).trans hok.used
      · rw [hrefs_i] at hb
        exact ⟨(hrefs b hb).1, (hrefs b hb).2.1⟩
      · rw [hrefs_i]
        exact hnodup
      · rw [hself, (kind_of_isFile hfile').1] at hdir
        cases hdir
    · refine (hsame j hj hji).nodeOk (hs.node j hj) ?_ fun b hb => ?_
      · exact (congrFun htook.inodeUsed j).trans (hs.node j hj).used
      · exact (rewrite_other hs hi htook hj hji hb).2.1
  by_cases hji : j = i
  · subst hji
    rw [hrefs_i, (hsame k hk hjk.symm).refs]
    exact hdisj k hk hjk.symm
  rw [(hsame j hj hji).refs]
  by_cases hki : k = i
  · subst hki
    rw [hrefs_i]
    exact (hdisj j hj hji).symm
  · rw [(hsame k hk hki).refs]
    exact hs.disjoint j k hj hk hjk

/-- A file that was written. -/
theorem Wrote.sound (hw : Wrote (s.inode i) data N s₁ inode) : Sound fs (s₁.setInode i inode) := by
  obtain ⟨now, -, heq⟩ := hw.record
  refine rewrite_sound hs hi htook hfile (heq ▸ hfile) (by rw [heq]) (fun b hb => ?_)
    (hw.refs.nodup_iff.2 htook.nodup)
  have hbN := hw.refs.mem_iff.1 hb
  exact ⟨(htook.free b hbN).1, by rw [htook.used]; simp [hbN], .inl hbN⟩

/-- A file without pointer blocks survives when the disk is full: its blocks hold other data
now, but they are all in use again. -/
theorem Took.sound_of_direct
    (hdirect : ∀ k, 12 ≤ k → (s.inode i).blocks k = 0) (hfull : freeSet fs s₁ = ∅) :
    Sound fs s₁ := by
  have heq : s₁.setInode i (s.inode i) = s₁ := by
    have hin : s₁.inode = s.inode := htook.inode
    rw [setInode, ← hin, Function.update_eq_self]
  have hrefs : refs s₁.block (s.inode i) = s.refs i := by
    have h12 := hdirect 12 (by decide)
    have h13 := hdirect 13 (by decide)
    have h14 := hdirect 14 (by decide)
    rw [Store.refs, refs_eq, refs_eq]
    simp [treeOr, h12, h13, h14]
  have hok := hs.node i hi
  rw [← heq]
  refine rewrite_sound hs hi htook hfile hfile rfl (fun b hb => ?_) (hrefs ▸ hok.nodup)
  rw [hrefs] at hb
  refine ⟨(hok.refs b hb).1, ?_, .inr hb⟩
  by_contra hfree
  have := mem_freeSet.2 ⟨(hok.refs b hb).1.1, by simpa using hfree⟩
  rw [hfull] at this
  simp at this

end Rewrite

end Ristux.Ext2
