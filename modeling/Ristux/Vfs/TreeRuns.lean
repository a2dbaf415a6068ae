import Ristux.Vfs.Tree

-- Each call that succeeds on an in-memory path is one of the changes of `Tree`.

variable {mode : UInt16} {c : TreeCall}

namespace Ristux.Vfs
open Lib Ext2 List Proc Option Except
open Kernel (Credentials)

inductive TreeCall where
  | mkdir (path : Str) (creds : Credentials) (mode : UInt16)
  | create (path : Str) (creds : Credentials) (mode : UInt16)
  | symlink (target linkPath : Str) (creds : Credentials)
  | link (oldPath newPath : Str) (creds : Credentials)
  | unlink (path : Str) (creds : Credentials)
  | rmdir (path : Str) (creds : Credentials)
  | rename (oldPath newPath : Str) (creds : Credentials)

namespace TreeCall

def run : TreeCall → V Unit
  | mkdir path creds mode => mkdirWithModeAs path creds mode
  | create path creds mode => do
    let _ ← createFileWithModeAs path creds mode
    pure ()
  | symlink target linkPath creds => symlinkAs target linkPath creds
  | link oldPath newPath creds => linkAs oldPath newPath creds
  | unlink path creds => unlinkAs path creds
  | rmdir path creds => rmdirAs path creds
  | rename oldPath newPath creds => renameAs oldPath newPath creds

/-- The path whose entry the call makes or takes away. -/
def path : TreeCall → Str
  | mkdir path _ _ | create path _ _ | symlink _ path _ | link _ path _ | unlink path _
  | rmdir path _ | rename path _ _ => path

/-- The path is not handled by the ext2 root. -/
def InMemory (c : TreeCall) (s : State) : Prop :=
  ∀ q, normalizePath c.path = .ok q → (if useRootExt2 q then s.rootExt2 else none) = none

/-- What the call needs to leave a tree. Only renaming and removing a directory ask for
something: the paths of a rename have to fit, and the node a removal ends at, after following
hard links, must not be the parent directory of a live node. -/
def KeepsTree (s : State) : TreeCall → Prop
  | rename oldPath newPath _ => ∀ p q, normalizePath oldPath = .ok p →
      normalizePath newPath = .ok q → p = q ∨ RenameFits s p q
  | rmdir path _ => ∀ p i m, normalizePath path = .ok p → s.position p = some i →
      s.nodes[canonicalNodeIndex s.nodes i]? = some m → m.path ≠ [] →
        ∀ n ∈ s.nodes, n.path ≠ [] → n.path ≠ ['/'] → parentPath n.path ≠ .ok m.path
  | _ => True

end TreeCall

variable {s s' : State} {path q : Str}

theorem samePaths_modifyNode
    (hf : ∀ n, (f n).path = n.path ∧ (f n).kind = n.kind) : SamePaths s (s.modifyNode i f) := by
  unfold SamePaths State.modifyNode
  apply ext_getElem?
  intro k
  rw [getElem?_map, getElem?_map, getElem?_modify]
  rcases s.nodes[k]? with _ | n
  · rfl
  split_ifs
  · simp [hf n]
  · rfl

theorem SamePaths.trans (h : SamePaths s s') (h' : SamePaths s' s'') :
    SamePaths s s'' := Eq.trans h' h

section
variable (hq : normalizePath path = .ok q)
  (hroot : (if useRootExt2 q then s.rootExt2 else none) = none)
include hq hroot

theorem mkdirWithModeAs_added
    (h : mkdirWithModeAs path creds mode s = (.ok u, s')) : Added s s' q := by
  have hn := normal_of_normalizePath hq
  simp only [mkdirWithModeAs, hq, lift_ok_bind, rootFor_bind_eq_ok, hroot,
    query_bind_eq_ok, require_bind_eq_ok, ok.injEq, exists_eq_left'] at h
  obtain ⟨hfree, h⟩ := h
  obtain ⟨hparent, h⟩ := ensureParentDirectory_bind hn h
  obtain ⟨now, w, h⟩ := timestamp_bind_eq_ok h
  rw [pushNode_bind_eq_ok, pure_eq_ok] at h
  exact ⟨hn, by simpa using hfree, hparent, _, rfl, by rw [h.2]; rfl⟩

theorem symlinkAs_added (h : symlinkAs target path creds s = (.ok u, s')) : Added s s' q := by
  have hn := normal_of_normalizePath hq
  simp only [symlinkAs, hq, lift_ok_bind, rootFor_bind_eq_ok, hroot,
    query_bind_eq_ok, require_bind_eq_ok, ok.injEq, exists_eq_left'] at h
  obtain ⟨hfree, h⟩ := h
  obtain ⟨hparent, h⟩ := ensureParentDirectory_bind hn h
  obtain ⟨now, w, h⟩ := timestamp_bind_eq_ok h
  rw [lift_bind_eq_ok] at h
  obtain ⟨data, -, h⟩ := h
  rw [pushNode_bind_eq_ok, pure_eq_ok] at h
  exact ⟨hn, by simpa using hfree, hparent, _, rfl, by rw [h.2]; rfl⟩

theorem linkAs_added (h : linkAs oldPath path creds s = (.ok u, s')) : Added s s' q := by
  have hn := normal_of_normalizePath hq
  simp only [linkAs, hq, lift_ok_bind, query_bind_eq_ok, require_bind_eq_ok, decide_eq_true_eq] at h
  obtain ⟨old, -, hsame, h⟩ := h
  split_ifs at h with hext
  · -- On the ext2 root the call asks for a mounted file system.
    rw [← hsame, hext, if_pos rfl] at hroot
    rw [lift_bind_eq_ok] at h
    obtain ⟨_, -, h⟩ := h
    rw [query_bind_eq_ok, hroot] at h
    obtain ⟨_, h, -⟩ := h
    cases h
  simp only [linkNode, query_bind_eq_ok, require_bind_eq_ok, ok.injEq, exists_eq_left'] at h
  obtain ⟨hfree, h⟩ := h
  obtain ⟨hparent, h⟩ := ensureParentDirectory_bind hn h
  rw [query_bind_eq_ok] at h
  obtain ⟨source, -, h⟩ := h
  rw [canonical_bind_eq_ok, nodeAt_bind_eq_ok] at h
  obtain ⟨node, -, h⟩ := h
  rw [require_bind_eq_ok] at h
  obtain ⟨now, w, h⟩ := timestamp_bind_eq_ok h.2
  rw [pushNode_bind_eq_ok, pure_eq_ok] at h
  exact ⟨hn, by simpa using hfree, hparent, _, rfl, by rw [h.2]; rfl⟩

theorem createFileWithModeAs_cases (h : createFileWithModeAs path creds mode s = (.ok fd, s')) :
    Added s s' q ∨ SamePaths s s' := by
  have hn := normal_of_normalizePath hq
  simp only [createFileWithModeAs, hq, lift_ok_bind, rootFor_bind_eq_ok, hroot, createNode] at h
  obtain ⟨hparent, h⟩ := ensureParentDirectory_bind hn h
  rw [query_bind_eq_ok] at h
  obtain ⟨found, hfound, h⟩ := h
  cases hfound
  rcases hpos : s.position q with _ | i <;> rw [hpos] at h <;> dsimp only at h
  · obtain ⟨now, w, h⟩ := timestamp_bind_eq_ok h
    exact .inl ⟨hn, hpos, hparent, _, rfl, by rw [pushOpenHandle_nodes h]; rfl⟩
  rw [canonical_bind_eq_ok, nodeAt_bind_eq_ok] at h
  obtain ⟨node, -, h⟩ := h
  rw [require_bind_eq_ok, require_bind_eq_ok, update_bind_eq_ok] at h
  obtain ⟨now, w, h⟩ := timestamp_bind_eq_ok h.2.2
  right
  have hclear : SamePaths s (s.modifyNode (canonicalNodeIndex s.nodes i)
      fun n => { n with data := .empty }) := samePaths_modifyNode fun _ => ⟨rfl, rfl⟩
  refine hclear.trans ?_
  unfold SamePaths
  rw [pushOpenHandle_nodes h]
  exact samePaths_modifyNode fun _ => ⟨rfl, rfl⟩

theorem unlinkAs_cleared (h : unlinkAs path creds s = (.ok u, s')) :
    ∃ i n, s.nodes[i]? = some n ∧ n.path = q ∧ n.kind ≠ .directory ∧ Cleared s s' i := by
  have hn := normal_of_normalizePath hq
  simp only [unlinkAs, hq, lift_ok_bind, rootFor_bind_eq_ok, hroot] at h
  obtain ⟨-, h⟩ := ensureParentDirectory_bind hn h
  rw [query_bind_eq_ok] at h
  obtain ⟨i, hi, h⟩ := h
  rw [nodeAt_bind_eq_ok] at h
  obtain ⟨n, hni, h⟩ := h
  rw [require_bind_eq_ok, clearPath, update_eq_ok] at h
  obtain ⟨m, hmi, hmp⟩ := position_eq_some (Res.okOr_eq_ok.1 hi)
  obtain rfl : n = m := some.inj (hni.symm.trans hmi)
  refine ⟨i, n, hni, hmp, ?_, by rw [h.2]; rfl⟩
  intro hk
  simp [hk] at h

theorem rmdirAs_cleared (h : rmdirAs path creds s = (.ok u, s')) : ∃ i n, s.position q = some i ∧
      s.nodes[canonicalNodeIndex s.nodes i]? = some n ∧
      Cleared s s' (canonicalNodeIndex s.nodes i) := by
  have hn := normal_of_normalizePath hq
  simp only [rmdirAs, hq, lift_ok_bind, require_bind_eq_ok, rootFor_bind_eq_ok, hroot] at h
  obtain ⟨-, h⟩ := ensureParentDirectory_bind hn h.2
  rw [query_bind_eq_ok] at h
  obtain ⟨_, -, h⟩ := h
  rw [query_bind_eq_ok] at h
  obtain ⟨i, hi, h⟩ := h
  rw [canonical_bind_eq_ok, nodeAt_bind_eq_ok] at h
  obtain ⟨n, hni, h⟩ := h
  rw [require_bind_eq_ok, clearPath, update_eq_ok] at h
  exact ⟨i, n, Res.okOr_eq_ok.1 hi, hni, by rw [h.2]; rfl⟩

theorem renameAs_renamed (hp : normalizePath newPath = .ok p)
    (h : renameAs path newPath creds s = (.ok u, s')) :
    q ≠ ['/'] ∧ p ≠ ['/'] ∧ ∃ i replaced, Renamed s s' q p i replaced := by
  have hn := normal_of_normalizePath hp
  simp only [renameAs, hq, hp, lift_ok_bind, require_bind_eq_ok, rootFor_bind_eq_ok, hroot,
    renameNode, decide_eq_true_eq] at h
  obtain ⟨⟨hqr, hpr⟩, -, h⟩ := h
  obtain ⟨-, h⟩ := ensureParentDirectory_bind (normal_of_normalizePath hq) h
  obtain ⟨hparent, h⟩ := ensureParentDirectory_bind hn h
  rw [query_bind_eq_ok] at h
  obtain ⟨i, hi, h⟩ := h
  rw [query_bind_eq_ok] at h
  obtain ⟨replaced, hr, h⟩ := h
  rw [query_bind_eq_ok] at h
  obtain ⟨rs, hrs, h⟩ := h
  refine ⟨hqr, hpr, i, replaced, Res.okOr_eq_ok.1 hi, (ok.inj hr).symm,
    hparent, rs, hrs, ?_⟩
  rcases replaced with _ | r
  · simp only [update_bind_eq_ok, update_eq_ok] at h
    rw [h]
    rfl
  simp only [clearPath, update_bind_eq_ok, update_eq_ok] at h
  rw [h]
  rfl

end

theorem TreeCall.exists_normalized (h : c.run s = (.ok u, s')) :
    ∃ q, normalizePath c.path = .ok q := by
  rcases hq : normalizePath c.path with e | q
  · exfalso
    cases c with
    | mkdir path creds mode => simp [run, mkdirWithModeAs, show normalizePath path = _ from hq] at h
    | create path creds mode =>
      simp [run, createFileWithModeAs, show normalizePath path = _ from hq] at h
    | symlink target path creds => simp [run, symlinkAs, show normalizePath path = _ from hq] at h
    | link old path creds =>
      simp only [run, linkAs, show normalizePath path = _ from hq, query_bind_eq_ok,
        lift_error_bind] at h
      simp at h
    | unlink path creds => simp [run, unlinkAs, show normalizePath path = _ from hq] at h
    | rmdir path creds => simp [run, rmdirAs, show normalizePath path = _ from hq] at h
    | rename path new creds => simp [run, renameAs, show normalizePath path = _ from hq] at h
  · exact ⟨q, rfl⟩

/-- A successful call on an in-memory path keeps the tree exactly when it finds the nodes as it
needs them. -/
theorem TreeCall.isTree_iff (hs : s.IsTree) (hmem : c.InMemory s)
    (h : c.run s = (.ok u, s')) : s'.IsTree ↔ c.KeepsTree s := by
  obtain ⟨q, hq⟩ := exists_normalized h
  have hroot := hmem q hq
  cases c with
  | mkdir path creds mode =>
    exact iff_of_true ((mkdirWithModeAs_added hq hroot h).isTree hs) trivial
  | create path creds mode =>
    rw [run, bind_eq_ok] at h
    obtain ⟨fd, s₁, h, hpure⟩ := h
    obtain ⟨-, rfl⟩ := pure_eq_ok.1 hpure
    refine iff_of_true ?_ trivial
    rcases createFileWithModeAs_cases hq hroot h with hadd | hsame
    · exact hadd.isTree hs
    · rw [isTree_iff_table (hsame.normalPaths hs.normalPaths), hsame.table_eq]
      exact (isTree_iff_table hs.normalPaths).1 hs
  | symlink target path creds =>
    exact iff_of_true ((symlinkAs_added hq hroot h).isTree hs) trivial
  | link old path creds =>
    exact iff_of_true ((linkAs_added hq hroot h).isTree hs) trivial
  | unlink path creds =>
    obtain ⟨i, n, hi, hnp, hk, hclear⟩ := unlinkAs_cleared hq hroot h
    have hlive : n.path ≠ [] := by rw [hnp]; exact (normal_of_normalizePath hq).ne_nil
    exact iff_of_true (hclear.isTree_of_leaf hs hi hlive hk) trivial
  | rmdir path creds =>
    obtain ⟨i, m, hi, hm, hclear⟩ := rmdirAs_cleared hq hroot h
    by_cases hmp : m.path = []
    · refine iff_of_true (hclear.isTree_of_dead hs hm hmp) ?_
      intro p j m' hp hj hm' hmp'
      obtain rfl : q = p := ok.inj (hq.symm.trans hp)
      obtain rfl : i = j := some.inj (hi.symm.trans hj)
      obtain rfl : m = m' := some.inj (hm.symm.trans hm')
      exact absurd hmp hmp'
    rw [hclear.isTree_iff hs hm hmp]
    constructor
    · intro hleaf p j m' hp hj hm' _
      obtain rfl : q = p := ok.inj (hq.symm.trans hp)
      obtain rfl : i = j := some.inj (hi.symm.trans hj)
      obtain rfl : m = m' := some.inj (hm.symm.trans hm')
      exact hleaf
    · exact fun hkeep => hkeep q i m hq hi hm hmp
  | rename path new creds =>
    rcases hp : normalizePath new with e | p
    · rw [run, renameAs, show normalizePath path = _ from hq, hp] at h
      simp at h
    obtain ⟨hqr, hpr, i, replaced, hren⟩ := renameAs_renamed hq hroot hp h
    rw [hren.isTree_iff hs (normal_of_normalizePath hq) hqr (normal_of_normalizePath hp) hpr]
    constructor
    · intro hfit q' p' hq' hp'
      obtain rfl : q = q' := ok.inj (hq.symm.trans hq')
      obtain rfl : p = p' := ok.inj (hp.symm.trans hp')
      exact hfit
    · exact fun hkeep => hkeep q p hq hp

/-- A run of successful calls on in-memory paths. `TreeRun s trace s'` goes from `s` to `s'`;
the trace has each call with the state it was made in. -/
inductive TreeRun : State → List (State × TreeCall) → State → Prop
  | done (s : State) : TreeRun s [] s
  | call {s s' s'' : State} {c : TreeCall} {trace : List (State × TreeCall)} :
      c.InMemory s → c.run s = (.ok (), s') → TreeRun s' trace s'' → TreeRun s ((s, c) :: trace) s''

/-- Every state of a run that starts from a tree is a tree exactly when every call of the run
finds the nodes as it needs them. -/
theorem tree_kept_iff {s s' : State} {trace : List (State × TreeCall)} (hs : s.IsTree)
    (hrun : TreeRun s trace s') :
    ((∀ e ∈ trace, e.1.IsTree) ∧ s'.IsTree) ↔ ∀ e ∈ trace, e.2.KeepsTree e.1 := by
  induction hrun with
  | done s => simp [hs]
  | @call s s₁ s₂ c trace hmem hcall hrest ih =>
    have hstep := TreeCall.isTree_iff hs hmem hcall
    simp only [forall_mem_cons, hs, true_and]
    constructor
    · rintro ⟨hstates, hlast⟩
      have hs' : s₁.IsTree := by
        cases hrest with
        | done => exact hlast
        | call _ _ _ => exact hstates _ mem_cons_self
      exact ⟨hstep.1 hs', (ih hs').1 ⟨hstates, hlast⟩⟩
    · rintro ⟨hkeep, hrest'⟩
      exact (ih (hstep.2 hkeep)).2 hrest'

instance (path : Str) : Decidable (Normal path) :=
  inferInstanceAs (Decidable (normalizePath path = .ok path))

instance (s : State) : Decidable s.IsTree :=
  decidable_of_iff
    ((s.nodes.Pairwise fun n m => n.path ≠ [] → n.path ≠ m.path) ∧
      (∀ n ∈ s.nodes, n.path ≠ [] → Normal n.path) ∧
      ∀ n ∈ s.nodes, n.path ≠ [] → n.path ≠ ['/'] →
        ∃ m ∈ s.nodes, m.kind = .directory ∧ parentPath n.path = .ok m.path)
    ⟨fun h => ⟨h.1, h.2.1, h.2.2⟩, fun h => ⟨h.distinct, h.normal, h.rooted⟩⟩

/-- Without an ext2 root: the file `/tmp/a` beside the directory `/tmp/d` with the file
`/tmp/d/x`. -/
def smallTree : State where
  nodes := [newNode "/".toList .directory ⟨0, 0, 0o755⟩ 0,
    newNode "/tmp".toList .directory ⟨0, 0, 0o777⟩ 0,
    newNode "/tmp/a".toList .file ⟨0, 0, 0o644⟩ 0,
    newNode "/tmp/d".toList .directory ⟨0, 0, 0o755⟩ 0,
    newNode "/tmp/d/x".toList .file ⟨0, 0, 0o644⟩ 0]
  openFiles := []
  pipes := []
  ptys := []
  mounts := []
  world := { dev := ⟨0, fun _ => Buf.zero⟩, wall := fun _ => 0, fileTimestampCounter := 0 }

theorem smallTree_inMemory (c : TreeCall) : c.InMemory smallTree := by
  intro q _
  cases useRootExt2 q <;> rfl

def moveDirectory : TreeCall := .rename "/tmp/d".toList "/tmp/e".toList .root

theorem tree_kept_iff_moveDirectory :
    TreeRun smallTree [(smallTree, moveDirectory)] (moveDirectory.run smallTree).2 ∧
      (moveDirectory.run smallTree).2.IsTree ∧ moveDirectory.KeepsTree smallTree := by
  have hrun : TreeRun smallTree [(smallTree, moveDirectory)] (moveDirectory.run smallTree).2 :=
    .call (smallTree_inMemory _) (Prod.ext (by decide) rfl) (.done _)
  have hlast : (moveDirectory.run smallTree).2.IsTree := by decide
  have hkeep := (tree_kept_iff (by decide) hrun).1 ⟨by simp; decide, hlast⟩
  exact ⟨hrun, hlast, hkeep _ mem_cons_self⟩

def renameOnto : TreeCall := .rename "/tmp/a".toList "/tmp/d".toList .root

/-- The file takes the place of the directory, and `/tmp/d/x` is left below a file. -/
theorem rename_onto_directory : smallTree.IsTree ∧ renameOnto.InMemory smallTree ∧
    (renameOnto.run smallTree).1 = .ok () ∧ ¬ (renameOnto.run smallTree).2.IsTree := by
  exact ⟨by decide, smallTree_inMemory _, by decide, by decide⟩

end Ristux.Vfs
