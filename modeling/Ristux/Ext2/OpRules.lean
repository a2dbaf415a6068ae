import Ristux.Ext2.DirUpdate
import Ristux.Ext2.Ops

-- Every operation starts with lookups and then changes the store in a few steps. The rules for
-- the lookups hand over the tree's answer; `Grown` and `Idle` describe steps that stay away from
-- everything in use.

namespace Ristux.Ext2
open Lib Proc List Res Option Store
variable {t : Tree} {path c c' : Str} {p x : ℕ} {s s' : Store}

/-- The directory that holds the last component of `path`, and that component. -/
structure Tree.Parent (t : Tree) (path : Str) (p : ℕ) (c : Str) : Prop where
  abs : path.head? = some '/'
  parts : ∃ ps, partsOf path = ps ++ [c] ∧ t.resolve true 8 ps = some p
  dir : (t.node p).isDir = true

namespace Tree.Parent
variable (h : t.Parent path p c)
include h

theorem plain : Plain c := by
  obtain ⟨ps, hps, -⟩ := h.parts
  exact plain_partsOf (hps ▸ mem_append_right _ mem_cons_self)

theorem reach : t.Reach p := by
  obtain ⟨ps, -, hp⟩ := h.parts
  exact Tree.resolve_reach hp

theorem lookup : t.lookup false path = t.find p c := by
  obtain ⟨ps, hps, hp⟩ := h.parts
  rw [Tree.lookup, if_pos h.abs, hps, Tree.resolve_append, hp, bind_some, if_pos h.dir]

theorem not_dots (x : ℕ) : ¬RawEntry.Dots ⟨x, asBytes c⟩ := by
  rintro (hd | hd)
  · exact h.plain.2.1 (asBytes_injective hd)
  · exact h.plain.2.2.1 (asBytes_injective hd)

end Tree.Parent

variable {i : ℕ}

theorem Tree.lookup_reach (h : t.lookup follow path = some i) : t.Reach i := by
  unfold Tree.lookup at h
  split_ifs at h with habs
  exact Tree.resolve_reach h

theorem Tree.lookup_componentsToPath (t : Tree) (follow : Bool) (hps : ∀ p ∈ ps, Plain p) :
    t.lookup follow (componentsToPath ps) = t.resolve follow 8 ps := by
  have hhead : (componentsToPath ps).head? = some '/' := rfl
  rw [Tree.lookup, partsOf_componentsToPath hps, if_pos hhead]

theorem Tree.Parent.of_lookup (habs : path.head? = some '/') (hparts : partsOf path = ps ++ [c])
    (hp : t.lookup true (componentsToPath ps) = some p) (hdir : (t.node p).isDir = true) :
    t.Parent path p c := by
  have hplain : ∀ q ∈ ps, Plain q :=
    fun q hq => plain_partsOf (hparts ▸ mem_append_left _ hq)
  rw [Tree.lookup_componentsToPath _ _ hplain] at hp
  exact ⟨habs, ⟨ps, hparts, hp⟩, hdir⟩

/-- The parent of a path that can be looked up is a directory. -/
theorem Tree.Parent.of_found (habs : path.head? = some '/') (hparts : partsOf path = ps ++ [c])
    (hp : t.lookup true (componentsToPath ps) = some p) (hi : t.lookup false path = some i) :
    t.Parent path p c := by
  have hplain : ∀ q ∈ ps, Plain q :=
    fun q hq => plain_partsOf (hparts ▸ mem_append_left _ hq)
  rw [Tree.lookup_componentsToPath _ _ hplain] at hp
  refine ⟨habs, ⟨ps, hparts, hp⟩, ?_⟩
  rw [Tree.lookup, if_pos habs, hparts, Tree.resolve_append, hp, bind_some] at hi
  by_contra hdir
  rw [if_neg hdir] at hi
  cases hi

theorem Tree.Parent.lookup_eq (h : t.Parent path p c) (hparts : partsOf path = ps ++ [c']) :
    c' = c ∧ t.lookup true (componentsToPath ps) = some p := by
  obtain ⟨qs, hqs, hp⟩ := h.parts
  obtain ⟨rfl, hc⟩ := append_inj' (hparts.symm.trans hqs) rfl
  have hplain : ∀ q ∈ ps, Plain q :=
    fun q hq => plain_partsOf (hparts ▸ mem_append_left _ hq)
  exact ⟨(List.cons.inj hc).1, (Tree.lookup_componentsToPath _ _ hplain).trans hp⟩

theorem Tree.Parent.unique (h : t.Parent path p c) (h' : t.Parent path p' c') : p' = p ∧ c' = c := by
  obtain ⟨ps, hps, -⟩ := h.parts
  obtain ⟨-, hp⟩ := h.lookup_eq hps
  obtain ⟨rfl, hp'⟩ := h'.lookup_eq hps
  exact ⟨some.inj (hp'.symm.trans hp), rfl⟩

theorem splitParentName_cases (path : Str) :
    ((∃ e, splitParentName path = err e) ∧ ∀ (t : Tree) p c, ¬t.Parent path p c) ∨
    ∃ ps c, path.head? = some '/' ∧ partsOf path = ps ++ [c] ∧
      splitParentName path = .ok (componentsToPath ps, c) := by
  by_cases hhead : path.head? = some '/'
  · rcases eq_nil_or_concat (partsOf path) with hnil | ⟨ps, c, hparts⟩
    · refine .inl ⟨⟨_, splitParentName_root hhead hnil⟩, fun t p c h => ?_⟩
      obtain ⟨ps, hps, -⟩ := h.parts
      rw [hnil] at hps
      simp at hps
    · rw [concat_eq_append] at hparts
      exact .inr ⟨ps, c, hhead, hparts, splitParentName_of_parts hhead hparts⟩
  · refine .inl ⟨⟨.notFound, ?_⟩, fun t p c h => hhead h.abs⟩
    rw [splitParentName, normalizeExt2Path, if_pos hhead]
    rfl

theorem At.inode_read (hw : At fs s w) (i : ℕ) :
    (s.inode i).Fits ∧ (s.inode i).stored = s.inode i := ⟨hw.inode_fits i, hw.inode_stored i⟩

section Rules
theorem now_does (hf : ∀ now ≤ u32Max, Does (At fs) (f now) s Q) :
    Does (At fs) (currentExt2Time >>= f) s Q := by
  refine currentExt2Time_does.bind ?_ ?_
  · rintro now s' ⟨rfl, now', hle, hr⟩
    cases hr
    exact hf now hle
  · rintro e s' ⟨-, now, -, hr⟩
    cases hr

theorem split_does {f : Str × Str → M α}
    (hfail : (∀ p c, ¬(treeOf fs s).Parent path p c) → ∀ e, Q (err e) s)
    (hf : ∀ ps c, path.head? = some '/' → partsOf path = ps ++ [c] →
      Does (At fs) (f (componentsToPath ps, c)) s Q) :
    Does (At fs) (lift (splitParentName path) >>= f) s Q := by
  rcases splitParentName_cases path with ⟨⟨e, he⟩, hno⟩ | ⟨ps, c, hhead, hparts, heq⟩
  · rw [he]
    exact Does.lift (hfail (hno _) e)
  · rw [heq]
    exact hf ps c hhead hparts

variable (h : Layout fs)
include h

theorem allocateInode_bind (hfull : (∀ x, Ordinary fs x → s.inodeUsed x = true) → Q (err .noSpace) s)
    (hf : ∀ x, Ordinary fs x → s.inodeUsed x = false →
      Does (At fs) (f x) (s.setInodeUsed x true) Q) :
    Does (At fs) (allocateInode fs >>= f) s Q := by
  refine (allocateInode_does h).bind ?_ ?_
  · rintro x s' (⟨ino, hx, hfree, hr, rfl⟩ | ⟨hr, -⟩)
    · cases hr
      exact hf x hx hfree
    · cases hr
  rintro e s' (⟨ino, -, -, hr, -⟩ | ⟨hr, rfl, hall⟩)
  · cases hr
  · cases hr
    exact hfull hall

theorem allocateBlock_attempt (hfull : Does (At fs) (f (.error .noSpace)) s Q)
    (hf : ∀ b, b < fs.blocksCount → s.blockUsed b = false →
      Does (At fs) (f (.ok b)) (s.setBlockUsed b true) Q) :
    Does (At fs) (attempt (allocateBlock fs) >>= f) s Q := by
  refine (allocateBlock_does h).attempt_bind ?_ ?_ ?_
  · rintro b s' (⟨b', hlt, hfree, hr, rfl⟩ | ⟨hr, -⟩)
    · cases hr
      exact hf b hlt hfree
    · cases hr
  · rintro e s' (⟨b', -, -, hr, -⟩ | ⟨hr, rfl, -⟩)
    · cases hr
    · cases hr
      exact hfull
  · rintro s' (⟨b', -, -, hr, -⟩ | ⟨hr, -⟩) <;> cases hr

/-- Writing back an inode that was read, with other links and another time. -/
theorem relink_does {inode : Inode} (hi : ValidIno fs i) (hread : inode.Fits ∧ inode.stored = inode)
    (hlinks : links < 2 ^ 16) (hctime : ctime < 2 ^ 32) : Does (At fs)
    (writeInode fs i { inode with links, ctime }) s
    (Ends () (s.setInode i { inode with links, ctime })) := by
  obtain ⟨hfits, hstored⟩ := hread
  have hkeep : Inode.stored { inode with links, ctime } = { inode with links, ctime } := by
    have hsize : (if inode.isFile then inode.size else inode.size % 2 ^ 32) = inode.size :=
      congrArg Inode.size hstored
    exact congrArg (fun size => { inode with links, ctime, size }) hsize
  have hrecord : Inode.Fits { inode with links, ctime } :=
    { hfits with links := hlinks, ctime := hctime }
  have := writeInode_does h (s := s) hi hrecord
  rwa [hkeep] at this

variable (hok : ∀ i, (treeOf fs s).Reach i → NodeOk fs s i)
include hok

theorem lookup_does (follow : Bool) {f : ℕ × Inode → M α}
    (hfail : (treeOf fs s).lookup follow path = none → ∀ e, Q (err e) s)
    (hf : ∀ i, (treeOf fs s).lookup follow path = some i → Does (At fs) (f (i, s.inode i)) s Q) :
    Does (At fs) (reading (fun dev => lookupPathInner fs dev follow 8 path) >>= f) s Q := by
  intro w hw
  have hfinds := lookupPathInner_at h hw hok follow path
  rcases hl : (treeOf fs s).lookup follow path with _ | i
  · rw [hl] at hfinds
    obtain ⟨e, he⟩ := hfinds
    rw [reading_bind_of_error he]
    exact ⟨s, hw, hfail hl e⟩
  rw [hl] at hfinds
  have hok : (fun dev => lookupPathInner fs dev follow 8 path) w.dev = .ok (i, s.inode i) := hfinds
  rw [reading_bind_of_ok hok]
  exact hf i hl w hw

theorem isOk_does (follow : Bool)
    (hf : Does (At fs) (f ((treeOf fs s).lookup follow path).isSome) s Q) :
    Does (At fs) (reading (fun dev => isOk (lookupPathInner fs dev follow 8 path)) >>= f) s Q := by
  intro w hw
  have hfinds := lookupPathInner_at h hw hok follow path
  rcases hl : (treeOf fs s).lookup follow path with _ | i
  · rw [hl] at hfinds hf
    obtain ⟨e, he⟩ := hfinds
    have hfalse : (fun dev => isOk (lookupPathInner fs dev follow 8 path)) w.dev = .ok false := by
      simp only [he, isOk]
    rw [reading_bind_of_ok hfalse]
    exact hf w hw
  rw [hl] at hfinds hf
  have hok : lookupPathInner fs w.dev follow 8 path = .ok (i, s.inode i) := hfinds
  have htrue : (fun dev => isOk (lookupPathInner fs dev follow 8 path)) w.dev = .ok true := by
    simp only [hok, isOk]
  rw [reading_bind_of_ok htrue]
  exact hf w hw

/-- A path at which there must be nothing yet. -/
theorem absent_does (follow : Bool)
    (hfail : (treeOf fs s).lookup follow path ≠ none → Q (err .alreadyExists) s)
    (hf : (treeOf fs s).lookup follow path = none → Does (At fs) f s Q) :
    Does (At fs) (reading (fun dev => isOk (lookupPathInner fs dev follow 8 path)) >>= fun found =>
      if found then fail .alreadyExists else f) s Q := by
  refine isOk_does h hok follow ?_
  cases hl : (treeOf fs s).lookup follow path with
  | none => exact hf hl
  | some i => exact Does.fail (hfail (by simp [hl]))

/-- The directory of the last part of a path. -/
theorem parent_does {f : ℕ × Inode → M α} (habs : path.head? = some '/')
    (hparts : partsOf path = ps ++ [c])
    (hnot : ∀ i inode, inode.isDir = false → f (i, inode) = fail .notDirectory)
    (hfail : (∀ p c, ¬(treeOf fs s).Parent path p c) → ∀ e, Q (err e) s)
    (hf : ∀ p, (treeOf fs s).Parent path p c → (s.inode p).isDir = true →
      Does (At fs) (f (p, s.inode p)) s Q) :
    Does (At fs) (reading (fun dev => lookupPathInner fs dev true 8 (componentsToPath ps)) >>= f)
      s Q := by
  refine lookup_does h hok true (fun hno e => hfail (fun p c hp => ?_) e) fun p hp => ?_
  · rw [(hp.lookup_eq hparts).2] at hno
    cases hno
  by_cases hdir : (s.inode p).isDir = true
  · exact hf p (.of_lookup habs hparts hp hdir) hdir
  rw [hnot p _ (by simpa using hdir)]
  refine Does.fail (hfail (fun q c hq => hdir ?_) _)
  have := (hq.lookup_eq hparts).2
  rw [hp] at this
  cases this
  exact hq.dir

end Rules

structure Grown (s s' : Store) : Prop where
  inodeUsed : ∀ i, s.inodeUsed i = true → s'.inodeUsed i = true
  blockUsed : ∀ b, s.blockUsed b = true → s'.blockUsed b = true
  inode : ∀ i, s.inodeUsed i = true → s'.inode i = s.inode i
  block : ∀ b, s.blockUsed b = true → s'.block b = s.block b

/-- Nothing in use has changed, and nothing else came into use. -/
structure Idle (s s' : Store) : Prop extends Grown s s' where
  inodeBits : s'.inodeUsed = s.inodeUsed
  blockBits : s'.blockUsed = s.blockUsed

theorem Grown.refl (s : Store) : Grown s s := ⟨fun _ h => h, fun _ h => h, fun _ _ => rfl,
  fun _ _ => rfl⟩

theorem Idle.refl (s : Store) : Idle s s := ⟨Grown.refl s, rfl, rfl⟩

theorem Grown.trans (h : Grown s s') (h' : Grown s' s'') : Grown s s'' :=
  ⟨fun i hi => h'.inodeUsed i (h.inodeUsed i hi), fun b hb => h'.blockUsed b (h.blockUsed b hb),
    fun i hi => (h'.inode i (h.inodeUsed i hi)).trans (h.inode i hi),
    fun b hb => (h'.block b (h.blockUsed b hb)).trans (h.block b hb)⟩

theorem Grown.frame (h : Grown s s') (hs : SoundUpTo fs bound s) : Frame fs s s' where
  same i hi := by
    refine ⟨?_, fun b hb => h.block b ((hs.node i hi).refs b hb).2⟩
    rw [h.inode i (hs.node i hi).used]
    exact Inode.SameShape.refl _
  used i hi := h.inodeUsed i (hs.node i hi).used
  blocks i hi b hb := h.blockUsed b ((hs.node i hi).refs b hb).2
  metaUsed b hb := h.blockUsed b (hs.metaUsed b hb)

theorem Took.grown (h : Took fs s N s') : Grown s s' where
  inodeUsed i hi := by rw [h.inodeUsed, hi]
  blockUsed b hb := by rw [h.used, hb, Bool.true_or]
  inode i _ := by rw [h.inode]
  block b hb := by
    refine h.block b fun hN => ?_
    rw [(h.free b hN).2] at hb
    cases hb

/-- A parent found before the store grew can be given the new name. -/
theorem Grown.insertDirEntry_does (hg : Grown s s') (h : Layout fs) (hs : SoundUpTo fs bound s)
    (hp : (treeOf fs s).Parent path p c)
    (hparent : parent.blocks = (s.inode p).blocks) (hx : ValidIno fs x) (fileType : ℕ) :
    Does (At fs) (insertDirEntry fs parent x c fileType) s'
      (Either (fun _ s'' => Added s' p ⟨x, asBytes c⟩ s'') fun _ s'' => s'' = s') := by
  have hframe := hg.frame hs
  have hinode : s'.inode p = s.inode p := hg.inode p (hs.node p hp.reach).used
  have hok := (hframe.soundUpTo hs).node p (hframe.sameTree.reach_iff.2 hp.reach)
  have hdir : (s'.inode p).isDir = true := hinode ▸ hp.dir
  exact (Ext2.insertDirEntry_does h hok hdir (hinode ▸ hparent) hx c fileType).mono_either
    (fun _ _ h => h.2) fun _ _ h => h.2

theorem grown_setInodeUsed (x : ℕ) : Grown s (s.setInodeUsed x true) where
  inodeUsed i hi := by
    by_cases hix : i = x
    · rw [hix, setInodeUsed_self]
    · exact (Function.update_of_ne hix _ _).trans hi
  blockUsed _ hb := hb
  inode _ _ := rfl
  block _ _ := rfl

theorem grown_setBlockUsed (b : ℕ) : Grown s (s.setBlockUsed b true) where
  inodeUsed _ hi := hi
  blockUsed c hc := by
    by_cases hcb : c = b
    · rw [hcb, setBlockUsed_self]
    · exact (Function.update_of_ne hcb _ _).trans hc
  inode _ _ := rfl
  block _ _ := rfl

theorem grown_setBlock (hb : s.blockUsed b = false) : Grown s (s.setBlock b data) where
  inodeUsed _ hi := hi
  blockUsed _ hc := hc
  inode _ _ := rfl
  block c hc := by
    refine setBlock_of_ne _ _ fun heq => ?_
    rw [heq, hb] at hc
    cases hc

theorem Grown.setInode (h : Grown s s') (hx : s.inodeUsed x = false) (inode : Inode) :
    Grown s (s'.setInode x inode) where
  inodeUsed := h.inodeUsed
  blockUsed := h.blockUsed
  inode i hi := by
    rw [← h.inode i hi]
    refine setInode_of_ne _ _ fun heq => ?_
    rw [heq, hx] at hi
    cases hi
  block := h.block

section Bounds
theorem nameCount_eq_zero (hi : ¬(treeOf fs s).Reach i) : nameCount fs s i = 0 :=
  Rooted.indegree_eq_zero hi

/-- Only the bounds of reachable inodes matter. -/
theorem SoundUpTo.rebound (hs : SoundUpTo fs bound s)
    (hb : ∀ i, (treeOf fs s).Reach i → bound i ≤ bound' i) : SoundUpTo fs bound' s := by
  refine hs.mono fun i hi => ?_
  by_cases hr : (treeOf fs s).Reach i
  · exact hi.trans (hb i hr)
  · rw [nameCount_eq_zero hr]
    exact Nat.zero_le _

end Bounds

theorem nameBound_congr (h : s'.inode i = s.inode i) : nameBound fs s' i = nameBound fs s i := by
  rw [nameBound, nameBound, h]

theorem nameBound_of_not_dir (hroot : i ≠ fs.rootIno) (hdir : (s.inode i).isDir = false) :
    nameBound fs s i = (s.inode i).links := by
  rw [nameBound, if_neg hroot, if_neg (by simp [hdir])]

theorem nameBound_of_dir (hdir : (s.inode i).isDir = true) :
    nameBound fs s i = if i = fs.rootIno then 0 else 1 := by
  rw [nameBound, if_pos hdir]

theorem Grown.sound (h : Grown s s') (hs : Sound fs s) : Sound fs s' := by
  refine ((h.frame hs).soundUpTo hs).rebound fun i hi => ?_
  have hi' := (h.frame hs).sameTree.reach_iff.1 hi
  exact (nameBound_congr (h.inode i (hs.node i hi').used)).ge

end Ristux.Ext2
