import Ristux.Ext2.Create

-- The new name is added before the old one is removed, and an existing target is unlinked before
-- either. Each of these steps is final, also when a later one fails.

namespace Ristux.Ext2
open Lib Proc List Option Does Tree.Parent

theorem find?_insert (e : RawEntry) (P : RawEntry → Bool) :
    (A ++ e :: B).find? P = (A ++ B).find? P ∨ (A ++ e :: B).find? P = some e := by
  rw [find?_append, find?_append]
  rcases A.find? P with _ | a
  · rw [none_or, none_or, find?_cons]
    rcases P e with _ | _
    · exact .inl rfl
    · exact .inr rfl
  · exact .inl rfl

section Added
variable (h : Added s p ⟨x, asBytes name⟩ s') (hs : SoundUpTo fs bound s)
  (hp : (treeOf fs s).Reach p) (hdir : (s.inode p).isDir = true)
include h hs hp hdir

/-- Every name is found as before, or it is the new one. -/
theorem Added.find_or (hd : (treeOf fs s).Reach d) (hc : Plain c) :
    (treeOf fs s').find d c = (treeOf fs s).find d c ∨ (treeOf fs s').find d c = some x := by
  obtain ⟨A, B, hfirst, hr⟩ := h
  rw [Tree.find_eq hc, Tree.find_eq hc]
  by_cases hdp : d = p
  · subst hdp
    rw [hr.entries (hs.node d hd) hdir, entries_eq (hs.node d hd) hdir, hfirst]
    simp only [append_assoc, cons_append]
    rcases find?_insert (A := A) ⟨x, asBytes name⟩
      (fun e => e.name = asBytes c) with heq | heq
    · exact .inl (by rw [heq])
    · exact .inr (by rw [heq]; rfl)
  · exact .inl (by rw [(hr.sameNode_of_reach hs hp hdir hd hdp).node])

end Added

/-- The last part of `rename old new` gets as far as adding the name `nn` to directory `np`
for the inode `o`, which is `on` in directory `op`, if there is room. -/
structure Movable (fs : Ext2Fs) (s : Store) (old new : Str) (op : ℕ) (on : Str) (np : ℕ) (nn : Str)
    (o : ℕ) : Prop where
  oldParent : (treeOf fs s).Parent old op on
  newParent : (treeOf fs s).Parent new np nn
  find : (treeOf fs s).find op on = some o
  sameDir : (s.inode o).isDir = true → (partsOf old).dropLast = (partsOf new).dropLast
  kind : (s.inode o).isDir = true ∨ (s.inode o).isFile = true ∨ (s.inode o).isSymlink = true

namespace Movable
variable (h : Movable fs s old new op on np nn o)
include h

theorem lookup : (treeOf fs s).lookup false old = some o := h.oldParent.lookup.trans h.find

theorem reach : (treeOf fs s).Reach o := Tree.lookup_reach h.lookup

end Movable

/-- The name has been moved. -/
def Moved (s : Store) (op : ℕ) (on : Str) (np : ℕ) (nn : Str) (o : ℕ) (s' : Store) : Prop :=
  Room s np (asBytes nn) ∧ ∃ s₁, Added s np ⟨o, asBytes nn⟩ s₁ ∧ Removed s₁ op ⟨o, asBytes on⟩ s'

/-- The new name has been added, but the old one cannot be removed. -/
def HalfMoved (s : Store) (op : ℕ) (on : Str) (np : ℕ) (nn : Str) (o : ℕ) (s' : Store) : Prop :=
  Room s np (asBytes nn) ∧ Added s np ⟨o, asBytes nn⟩ s' ∧
    ∀ e ∈ s'.firstEntries op, e.name ≠ asBytes on

/-- How the last part of `rename` succeeds. -/
def EntryMoved (fs : Ext2Fs) (s : Store) (old new : Str) (s' : Store) : Prop :=
  ∃ op on np nn o, Movable fs s old new op on np nn o ∧ Moved s op on np nn o s'

/-- How it fails. -/
def EntryStuck (fs : Ext2Fs) (s : Store) (old new : Str) (s' : Store) : Prop :=
  (s' = s ∧ ∀ op on np nn o, Movable fs s old new op on np nn o → ¬Room s np (asBytes nn)) ∨
  ∃ op on np nn o, Movable fs s old new op on np nn o ∧ HalfMoved s op on np nn o s'

section Move
variable (h : Layout fs) (hs : Sound fs s)
include h hs

/-- Adding the new name and then removing the old one. -/
theorem moveEntry_does (hm : Movable fs s old new op on np nn o) (fileType : ℕ) : Does (At fs) (do
      insertDirEntry fs (s.inode np) o nn fileType
      let removedIno ← removeDirEntry fs (s.inode op) on
      if removedIno = o then pure () else Proc.fail .ioError) s (Either
      (fun _ s' => EntryMoved fs s old new s') fun _ s' => EntryStuck fs s old new s') := by
  have hop := hm.oldParent
  have hnp := hm.newParent
  have hvalid := (hs.node o hm.reach).valid
  refine (insertDirEntry_does h (hs.node np hnp.reach) hnp.dir rfl hvalid nn fileType).bind_either
    ?_ ?_
  · rintro _ s₁ ⟨hroom, hadd⟩
    obtain ⟨A, B, hfirst, hrw⟩ := id hadd
    have hok := hrw.nodeOk_of_reach hs hnp.reach hnp.dir hop.reach
    have hdir : (s₁.inode op).isDir = true := hrw.inode ▸ hop.dir
    refine (removeDirEntry_does h hok hdir (by rw [hrw.inode]) hop.plain).bind_either ?_ ?_
    · rintro x s₂ ⟨hrem, -⟩
      have hfound := hrem.find_eq hok hdir hop.plain
      have hx : x = o := by
        rcases hadd.find_or hs hnp.reach hnp.dir hop.reach hop.plain with heq | heq
        · exact some.inj (hfound.symm.trans (heq.trans hm.find))
        · exact some.inj (hfound.symm.trans heq)
      rw [if_pos hx]
      exact pure ⟨op, on, np, nn, o, hm, hroom, s₁, hadd, hx ▸ hrem⟩
    · rintro e s₂ ⟨hno, rfl⟩
      exact .inr ⟨op, on, np, nn, o, hm, hroom, hadd, hno⟩
  · rintro e s₁ ⟨hno, rfl⟩
    refine .inl ⟨rfl, fun _ _ _ _ _ hm' => ?_⟩
    obtain ⟨rfl, rfl⟩ := hnp.unique hm'.newParent
    exact hno

theorem renameEntry_does (old new : Str) : Does (At fs) (renameEntry fs old new) s (Either
      (fun _ s' => EntryMoved fs s old new s') fun _ s' => EntryStuck fs s old new s') := by
  refine split_does (fun hno _ => .inl ⟨rfl, fun op on _ _ _ hm => ?_⟩) fun ps c habs hparts => ?_
  · exact absurd hm.oldParent (hno op on)
  refine split_does (fun hno _ => .inl ⟨rfl, fun _ _ np nn _ hm => ?_⟩)
    fun qs d habs' hparts' => ?_
  · exact absurd hm.newParent (hno np nn)
  refine lookup_does h hs.node false (fun hno _ => .inl ⟨rfl, fun _ _ _ _ _ hm => ?_⟩)
    fun o ho => ?_
  · rw [hm.lookup] at hno
    cases hno
  dsimp only
  by_cases hcross : (s.inode o).isDir = true ∧ componentsToPath ps ≠ componentsToPath qs
  · rw [if_pos hcross]
    refine fail (.inl ⟨rfl, fun _ _ _ _ o' hm => ?_⟩)
    obtain rfl : o = o' := some.inj (ho.symm.trans hm.lookup)
    have := hm.sameDir hcross.1
    rw [hparts, hparts', dropLast_concat, dropLast_concat] at this
    exact absurd (congrArg _ this) hcross.2
  rw [if_neg hcross]
  refine lookup_does h hs.node true (fun hno _ => .inl ⟨rfl, fun _ _ _ _ _ hm => ?_⟩)
    fun op hop => ?_
  · rw [(hm.oldParent.lookup_eq hparts).2] at hno
    cases hno
  refine lookup_does h hs.node true (fun hno _ => .inl ⟨rfl, fun _ _ _ _ _ hm => ?_⟩)
    fun np hnp => ?_
  · rw [(hm.newParent.lookup_eq hparts').2] at hno
    cases hno
  by_cases hdirs : (s.inode op).isDir = true ∧ (s.inode np).isDir = true
  · have hold := of_lookup habs hparts hop hdirs.1
    have hnew := of_lookup habs' hparts' hnp hdirs.2
    have hfind := hold.lookup.symm.trans ho
    have hsame : (s.inode o).isDir = true → (partsOf old).dropLast = (partsOf new).dropLast := by
      intro hd
      have heq : componentsToPath ps = componentsToPath qs := not_not.1 fun hne => hcross ⟨hd, hne⟩
      have hps : ∀ q ∈ ps, Plain q := fun q hq => plain_partsOf (hparts ▸ mem_append_left _ hq)
      have hqs : ∀ q ∈ qs, Plain q :=
        fun q hq => plain_partsOf (hparts' ▸ mem_append_left _ hq)
      rw [hparts, hparts', dropLast_concat, dropLast_concat,
        ← partsOf_componentsToPath hps, heq, partsOf_componentsToPath hqs]
    have hmove := fun hkind => moveEntry_does h hs
      (⟨hold, hnew, hfind, hsame, hkind⟩ : Movable fs s old new op c np d o)
    rw [if_neg (by simp [hdirs])]
    by_cases hd : (s.inode o).isDir = true
    · rw [if_pos hd]
      exact hmove (.inl hd) _
    rw [if_neg hd]
    by_cases hf : (s.inode o).isFile = true
    · rw [if_pos hf]
      exact hmove (.inr (.inl hf)) _
    rw [if_neg hf]
    by_cases hl : (s.inode o).isSymlink = true
    · rw [if_pos hl]
      exact hmove (.inr (.inr hl)) _
    rw [if_neg hl]
    refine fail (.inl ⟨rfl, fun _ _ _ _ o' hm => ?_⟩)
    obtain rfl : o = o' := some.inj (ho.symm.trans hm.lookup)
    exact absurd hm.kind (by simp [hd, hf, hl])
  · rw [if_pos (by simpa [imp_iff_not_or] using hdirs)]
    refine fail (.inl ⟨rfl, fun op' _ np' _ _ hm => absurd ?_ hdirs⟩)
    obtain rfl : op = op' := some.inj (hop.symm.trans (hm.oldParent.lookup_eq hparts).2)
    obtain rfl : np = np' := some.inj (hnp.symm.trans (hm.newParent.lookup_eq hparts').2)
    exact ⟨hm.oldParent.dir, hm.newParent.dir⟩

end Move

/-- Neither path is the string `/`, and the two are different. -/
def Proper (old new : Str) : Prop := old ≠ new ∧ old ≠ ['/'] ∧ new ≠ ['/']

/-- Both paths lead to the inode `o`; the old one is the entry `c` of directory `p`. -/
structure SameTarget (fs : Ext2Fs) (s : Store) (old new : Str) (p : ℕ) (c : Str) (o : ℕ) : Prop where
  proper : Proper old new
  oldFound : (treeOf fs s).lookup false old = some o
  newFound : (treeOf fs s).lookup false new = some o
  parent : (treeOf fs s).Parent old p c

/-- The new path is the entry `c` of directory `p` and names the file or link `i`, which has
to go. -/
structure Replaces (fs : Ext2Fs) (s : Store) (old new : Str) (p : ℕ) (c : Str) (i : ℕ) : Prop where
  proper : Proper old new
  oldFound : ∃ o, (treeOf fs s).lookup false old = some o ∧ o ≠ i
  target : Unlinkable fs s new p c i

/-- There is nothing at the new path. -/
structure NoTarget (fs : Ext2Fs) (s : Store) (old new : Str) : Prop where
  proper : Proper old new
  newFound : (treeOf fs s).lookup false new = none

def Renamed (fs : Ext2Fs) (s : Store) (old new : Str) (s' : Store) : Prop :=
  (old = new ∧ s' = s) ∨
  (∃ p c o, SameTarget fs s old new p c o ∧ Removed s p ⟨o, asBytes c⟩ s') ∨
  (∃ p c i s₁, Replaces fs s old new p c i ∧ Unlinked s p c i s₁ ∧ EntryMoved fs s₁ old new s') ∨
  (NoTarget fs s old new ∧ EntryMoved fs s old new s')

/-- No step of `rename` that changes anything can be reached. -/
structure Blocked (fs : Ext2Fs) (s : Store) (old new : Str) : Prop where
  ne : old ≠ new
  same : ∀ p c o, SameTarget fs s old new p c o → ∀ e ∈ s.firstEntries p, e.name ≠ asBytes c
  replaces : ∀ p c i, ¬Replaces fs s old new p c i
  noTarget : ¬NoTarget fs s old new

def NotRenamed (fs : Ext2Fs) (s : Store) (old new : Str) (s' : Store) : Prop :=
  (s' = s ∧ Blocked fs s old new) ∨
  (∃ p c i s₁, Replaces fs s old new p c i ∧ Unlinked s p c i s₁ ∧ EntryStuck fs s₁ old new s') ∨
  (NoTarget fs s old new ∧ EntryStuck fs s old new s')

theorem rename_does (h : Layout fs) (hs : Sound fs s) (old new : Str) :
    Does (At fs) (rename fs old new) s (Either
      (fun _ s' => Renamed fs s old new s') fun _ s' => NotRenamed fs s old new s') := by
  unfold rename
  by_cases heq : old = new
  · rw [if_pos heq]
    exact pure (.inl ⟨heq, rfl⟩)
  rw [if_neg heq]
  by_cases hroot : old = ['/'] ∨ new = ['/']
  · rw [if_pos hroot]
    refine fail (.inl ⟨rfl, heq, fun _ _ _ hst => ?_, fun _ _ _ hrp => ?_, fun hnt => ?_⟩)
    · exact absurd hroot (not_or.2 hst.proper.2)
    · exact absurd hroot (not_or.2 hrp.proper.2)
    · exact absurd hroot (not_or.2 hnt.proper.2)
  rw [if_neg hroot]
  have hproper : Proper old new := ⟨heq, not_or.1 hroot⟩
  refine isOk_does h hs.node false ?_
  rcases hnew : (treeOf fs s).lookup false new with _ | n
  · rw [if_neg (by simp)]
    exact (renameEntry_does h hs old new).mono_either
      (fun _ _ hm => .inr (.inr (.inr ⟨⟨hproper, hnew⟩, hm⟩)))
      fun _ _ hm => .inr (.inr ⟨⟨hproper, hnew⟩, hm⟩)
  rw [if_pos (by simp)]
  have hnt : ¬NoTarget fs s old new := fun hnt => by
    have := hnt.newFound
    rw [hnew] at this
    cases this
  refine lookup_does h hs.node false (fun hno _ => .inl ⟨rfl, heq, ?_, ?_, hnt⟩) fun o ho => ?_
  · intro p c o hst
    rw [hst.oldFound] at hno
    cases hno
  · intro p c i hrp
    obtain ⟨o, ho, -⟩ := hrp.oldFound
    rw [ho] at hno
    cases hno
  refine lookup_does h hs.node false (fun hno _ => ?_) fun n' hn' => ?_
  · rw [hnew] at hno
    cases hno
  obtain rfl : n = n' := some.inj (hnew.symm.trans hn')
  dsimp only
  by_cases hsame : n = o
  · subst hsame
    rw [if_pos rfl]
    have hrp : ∀ p c i, ¬Replaces fs s old new p c i := by
      intro p c i hrp
      obtain ⟨o, ho', hne⟩ := hrp.oldFound
      exact hne (some.inj ((ho'.symm.trans ho).trans (hnew.symm.trans hrp.target.lookup)))
    refine split_does (fun hno _ => .inl ⟨rfl, heq, fun p c _ hst => ?_, hrp, hnt⟩)
      fun ps c habs hparts => ?_
    · exact absurd hst.parent (hno p c)
    refine lookup_does h hs.node true (fun hno _ => .inl ⟨rfl, heq, fun p c _ hst => ?_, hrp, hnt⟩)
      fun p hp => ?_
    · rw [(hst.parent.lookup_eq hparts).2] at hno
      cases hno
    have hparent := of_found habs hparts hp ho
    have hok := hs.node p hparent.reach
    refine (removeDirEntry_does h hok hparent.dir rfl hparent.plain).bind_either ?_ ?_
    · rintro x s₁ ⟨hrem, -⟩
      have hfound := hrem.find_eq hok hparent.dir hparent.plain
      obtain rfl : n = x := some.inj ((ho.symm.trans hparent.lookup).trans hfound)
      exact pure (.inr (.inl ⟨p, c, n, ⟨hproper, ho, hnew, hparent⟩, hrem⟩))
    rintro e s₁ ⟨hno, rfl⟩
    refine .inl ⟨rfl, heq, fun q d _ hst => ?_, hrp, hnt⟩
    obtain ⟨rfl, rfl⟩ := hparent.unique hst.parent
    exact hno
  rw [if_neg hsame]
  have hst : ∀ p c o', SameTarget fs s old new p c o' → ∀ e ∈ s.firstEntries p,
      e.name ≠ asBytes c := by
    intro p c o' hst
    exact absurd (some.inj ((hnew.symm.trans hst.newFound).trans
      (hst.oldFound.symm.trans ho))) hsame
  by_cases hkind : (s.inode n).isFile = true ∨ (s.inode n).isSymlink = true
  · rw [if_neg (by simpa [or_iff_not_imp_left] using hkind)]
    refine (unlink_does h hs new).bind_either ?_ ?_
    · rintro _ s₁ ⟨p, c, i, hu, hun⟩
      obtain rfl : n = i := some.inj (hnew.symm.trans hu.lookup)
      have hrp : Replaces fs s old new p c n := ⟨hproper, ⟨o, ho, Ne.symm hsame⟩, hu⟩
      exact (renameEntry_does h (hun.sound hs hu) old new).mono_either
        (fun _ _ hm => .inr (.inr (.inl ⟨p, c, n, s₁, hrp, hun, hm⟩)))
        fun _ _ hm => .inr (.inl ⟨p, c, n, s₁, hrp, hun, hm⟩)
    · rintro e s₁ ⟨rfl, hno⟩
      exact .inl ⟨rfl, heq, hst, fun p c i hrp => hno p c i hrp.target, hnt⟩
  · rw [if_pos (by simpa [not_or] using hkind)]
    refine fail (.inl ⟨rfl, heq, hst, fun p c i hrp => hkind ?_, hnt⟩)
    obtain rfl : n = i := some.inj (hnew.symm.trans hrp.target.lookup)
    exact hrp.target.kind

/-- The entries named `c` are all in the first block of their directory. -/
def InFirstBlock (fs : Ext2Fs) (s : Store) (c : Str) : Prop :=
  ∀ d, (treeOf fs s).Reach d → ∀ e ∈ s.restEntries d, e.name ≠ asBytes c

section Sound
variable (hs : Sound fs s)
include hs

section Movable
variable (hm : Movable fs s old new op on np nn o)
include hm

omit hs in
theorem Movable.sameParent (hdir : (s.inode o).isDir = true) : np = op := by
  obtain ⟨ps, hps, hop⟩ := hm.oldParent.parts
  obtain ⟨qs, hqs, hnp⟩ := hm.newParent.parts
  have := hm.sameDir hdir
  rw [hps, hqs, dropLast_concat, dropLast_concat] at this
  rw [this, hnp] at hop
  exact some.inj hop

theorem Movable.linkable : Linkable fs s np o := by
  refine hs.linkable hm.reach fun hdir e he hname => ?_
  rw [hm.sameParent hdir]
  exact hs.dotDotParent op hm.oldParent.reach o (Tree.find_succ hm.oldParent.dir hm.find) e he hname

theorem Moved.sound (h : Moved s op on np nn o s') : Sound fs s' := by
  obtain ⟨-, s₁, hadd, hrem⟩ := h
  have hnp := hm.newParent
  have hop := hm.oldParent
  have hs₁ := hadd.soundUpTo hs hnp.reach hnp.dir (hnp.not_dots o) (hm.linkable hs)
  have hreach := (hadd.reach_iff hs hnp.reach hnp.dir (hnp.not_dots o) (hm.linkable hs)).2
    (.inl hop.reach)
  obtain ⟨A, B, -, hrw⟩ := hadd
  have hdir : (s₁.inode op).isDir = true := hrw.inode ▸ hop.dir
  have hs' := hrem.soundUpTo hs₁ hreach hdir (hop.not_dots o)
  obtain ⟨A', B', -, -, hrw'⟩ := hrem
  refine hs'.rebound fun j _ => ?_
  rw [Nat.add_sub_cancel]
  exact (nameBound_congr (by rw [hrw'.inode, hrw.inode])).ge

/-- The old name can always be removed if it is in the first block. -/
theorem Movable.not_halfMoved (hfirst : InFirstBlock fs s on) : ¬HalfMoved s op on np nn o s' := by
  rintro ⟨-, hadd, hno⟩
  have hop := hm.oldParent
  have hnp := hm.newParent
  have hmem := mem_firstEntries_of_find (hs.node op hop.reach) hop.dir hm.find
    (hfirst op hop.reach)
  refine hno ⟨o, asBytes on⟩ ?_ rfl
  obtain ⟨A, B, hAB, hrw⟩ := hadd
  by_cases heq : op = np
  · subst heq
    rw [hAB, mem_append] at hmem
    rw [hrw.firstEntries]
    exact mem_append.2 (hmem.imp id (mem_cons_of_mem _))
  · have hsame := hrw.sameNode_of_reach hs hnp.reach hnp.dir hop.reach heq
    rw [hsame.firstEntries (hs.node op hop.reach) hop.dir]
    exact hmem

end Movable

theorem EntryMoved.sound (h : EntryMoved fs s old new s') : Sound fs s' := by
  obtain ⟨op, on, np, nn, o, hm, hmoved⟩ := h
  exact hmoved.sound hs hm

theorem EntryStuck.eq (h : EntryStuck fs s old new s')
    (hfirst : ∀ ps c, partsOf old = ps ++ [c] → InFirstBlock fs s c) : s' = s := by
  rcases h with ⟨heq, -⟩ | ⟨op, on, np, nn, o, hm, hhalf⟩
  · exact heq
  · obtain ⟨ps, hps, -⟩ := hm.oldParent.parts
    exact absurd hhalf (hm.not_halfMoved hs (hfirst ps on hps))

theorem Unlinked.inFirstBlock (h : Unlinked s p c i s')
    (hu : Unlinkable fs s path p c i) (hfirst : InFirstBlock fs s d) :
    InFirstBlock fs s' d := by
  obtain ⟨s₁, hrem, -, hun⟩ := h
  have hp := hu.parent
  have hframe := hu.frame hs hrem hun
  intro j hj e he
  have hj₁ := hframe.sameTree.reach_iff.1 hj
  have hj₀ := (hrem.drops hs hp.reach hp.dir (hp.not_dots i)).reach_of hj₁
  obtain ⟨A, B, -, -, hrw⟩ := hrem
  rw [(hframe.same j hj₁).restEntries, hrw.restEntries_of_reach hs hp.reach hp.dir hj₀] at he
  exact hfirst j hj₀ e he

theorem Renamed.sound (h : Renamed fs s old new s') : Sound fs s' := by
  rcases h with ⟨-, rfl⟩ | ⟨p, c, o, hst, hrem⟩ | ⟨p, c, i, s₁, hrp, hun, hmoved⟩ | ⟨-, hmoved⟩
  · exact hs
  · exact hrem.sound hs hst.parent.reach hst.parent.dir (hst.parent.not_dots o)
  · exact hmoved.sound (hun.sound hs hrp.target)
  · exact hmoved.sound hs

theorem NotRenamed.sound (h : NotRenamed fs s old new s')
    (hfirst : ∀ ps c, partsOf old = ps ++ [c] → InFirstBlock fs s c) : Sound fs s' := by
  rcases h with ⟨rfl, -⟩ | ⟨p, c, i, s₁, hrp, hun, hstuck⟩ | ⟨-, hstuck⟩
  · exact hs
  · have hs₁ := hun.sound hs hrp.target
    rw [hstuck.eq hs₁ fun ps c hps => hun.inFirstBlock hs hrp.target (hfirst ps c hps)]
    exact hs₁
  · rw [hstuck.eq hs hfirst]
    exact hs

end Sound

end Ristux.Ext2
