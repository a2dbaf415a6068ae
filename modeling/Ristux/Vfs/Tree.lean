import Ristux.Lib.PathTree
import Ristux.Vfs.Rules

-- The nodes that are alive, by their index in the table, form a table of paths in the sense of
-- `PathTable`.

namespace Ristux.Vfs
open Lib Ext2 List Option Function State PathTable Node
open Kernel (Credentials)
variable {s s' : State}

/-- The live nodes are a tree of directories. -/
structure State.IsTree (s : State) : Prop where
  distinct : s.nodes.Pairwise fun n m => n.path ≠ [] → n.path ≠ m.path
  normal : ∀ n ∈ s.nodes, n.path ≠ [] → Normal n.path
  rooted : ∀ n ∈ s.nodes, n.path ≠ [] → n.path ≠ ['/'] →
    ∃ m ∈ s.nodes, m.kind = .directory ∧ parentPath n.path = .ok m.path

def Node.entry (n : Node) : Option (List Str × Bool) :=
  if n.path = [] then none else some (partsOf n.path, n.kind = .directory)

def State.table (s : State) : PathTable ℕ Str := fun i => (s.nodes[i]?).bind entry

def State.NormalPaths (s : State) : Prop := ∀ n ∈ s.nodes, n.path ≠ [] → Normal n.path

variable {i : ℕ}

theorem table_eq_some : s.table i = some (p, d) ↔ ∃ n,
    s.nodes[i]? = some n ∧ n.path ≠ [] ∧ partsOf n.path = p ∧ decide (n.kind = .directory) = d := by
  unfold table
  rcases s.nodes[i]? with _ | n
  · simp
  · by_cases hn : n.path = [] <;> simp [entry, hn]

variable {n : Node}

theorem table_of_node (h : s.nodes[i]? = some n) (hn : n.path ≠ []) :
    s.table i = some (partsOf n.path, decide (n.kind = .directory)) :=
  table_eq_some.2 ⟨n, h, hn, rfl, rfl⟩

theorem State.IsTree.normalPaths (h : s.IsTree) : s.NormalPaths := h.normal

theorem State.NormalPaths.at (h : s.NormalPaths) (hi : s.nodes[i]? = some n) (hn : n.path ≠ []) :
    Normal n.path := h n (mem_of_getElem? hi) hn

variable {p q path : Str}

theorem parentPath_eq_iff (hp : Normal p) (hq : Normal q) :
    parentPath p = .ok q ↔ (partsOf p).dropLast = partsOf q := by
  have hplain : ∀ r ∈ (partsOf p).dropLast, Plain r :=
    fun r hr => plain_partsOf (dropLast_subset _ hr)
  rw [hp.parentPath, Except.ok.injEq]
  constructor
  · intro h
    rw [← h, partsOf_componentsToPath hplain]
  intro h
  rw [h]
  exact hq.eq.symm

theorem normal_of_parentPath (hp : Normal p) (h : parentPath p = .ok q) : Normal q := by
  rw [hp.parentPath] at h
  cases h
  exact normal_componentsToPath fun r hr => plain_partsOf (dropLast_subset _ hr)

theorem distinct_iff_table (hn : s.NormalPaths) :
    (s.nodes.Pairwise fun n m => n.path ≠ [] → n.path ≠ m.path) ↔
      ∀ i j p d e, s.table i = some (p, d) → s.table j = some (p, e) → i = j := by
  rw [pairwise_iff_getElem]
  constructor
  · intro h i j p d e hi hj
    obtain ⟨n, hni, hnp, rfl, -⟩ := table_eq_some.1 hi
    obtain ⟨m, hmj, hmp, hpp, -⟩ := table_eq_some.1 hj
    have heq : n.path = m.path := (hn.at hni hnp).ext (hn.at hmj hmp) hpp.symm
    obtain ⟨hi', rfl⟩ := List.getElem?_eq_some_iff.1 hni
    obtain ⟨hj', rfl⟩ := List.getElem?_eq_some_iff.1 hmj
    rcases lt_trichotomy i j with hlt | hij | hlt
    · exact absurd heq (h i j hi' hj' hlt hnp)
    · exact hij
    · exact absurd heq.symm (h j i hj' hi' hlt hmp)
  intro h i j hi hj hij hpath heq
  have hti := table_of_node (getElem?_eq_getElem hi) hpath
  have htj := table_of_node (getElem?_eq_getElem hj) (heq ▸ hpath)
  rw [← heq] at htj
  exact absurd (h i j _ _ _ hti htj) (Nat.ne_of_lt hij)

theorem isTree_iff_table (hn : s.NormalPaths) : s.IsTree ↔ s.table.IsTree := by
  constructor
  · intro h
    refine ⟨(distinct_iff_table hn).1 h.distinct, ?_⟩
    intro i p d hi hp
    obtain ⟨n, hni, hnp, rfl, -⟩ := table_eq_some.1 hi
    have hnormal := hn.at hni hnp
    have hroot : n.path ≠ ['/'] := fun hr => hp (hnormal.partsOf_eq_nil.2 hr)
    obtain ⟨m, hm, hk, hparent⟩ := h.rooted n (mem_of_getElem? hni) hnp hroot
    have hmn := normal_of_parentPath hnormal hparent
    obtain ⟨j, hj⟩ := mem_iff_getElem?.1 hm
    refine ⟨j, table_eq_some.2 ⟨m, hj, hmn.ne_nil, ?_, by simp [hk]⟩⟩
    exact ((parentPath_eq_iff hnormal hmn).1 hparent).symm
  intro h
  refine ⟨(distinct_iff_table hn).2 h.distinct, hn, ?_⟩
  intro n hmem hnp hroot
  obtain ⟨i, hi⟩ := mem_iff_getElem?.1 hmem
  have hnormal := hn n hmem hnp
  obtain ⟨j, hj⟩ := h.rooted i _ _ (table_of_node hi hnp)
    fun hp => hroot (hnormal.partsOf_eq_nil.1 hp)
  obtain ⟨m, hmj, hmp, hpp, hk⟩ := table_eq_some.1 hj
  refine ⟨m, mem_of_getElem? hmj, of_decide_eq_true hk, ?_⟩
  exact (parentPath_eq_iff hnormal (hn.at hmj hmp)).2 hpp.symm

/-- A node is added for a path that is free, below a directory. -/
structure Added (s s' : State) (path : Str) : Prop where
  normal : Normal path
  free : s.position path = none
  parent : ∃ m ∈ s.nodes, m.kind = .directory ∧ parentPath path = .ok m.path
  nodes : ∃ n, n.path = path ∧ s'.nodes = s.nodes ++ [n]

/-- The node with index `i` loses its path. -/
def Cleared (s s' : State) (i : ℕ) : Prop :=
  s'.nodes = s.nodes.modify i fun n => { n with path := [] }

/-- Paths and kinds stay as they are. -/
def SamePaths (s s' : State) : Prop :=
  s'.nodes.map (fun n => (n.path, n.kind)) = s.nodes.map fun n => (n.path, n.kind)

theorem SamePaths.table_eq (h : SamePaths s s') : s'.table = s.table := by
  have htable : ∀ (t : State) (i : ℕ), t.table i =
      ((t.nodes.map fun n => (n.path, n.kind))[i]?).bind fun e =>
        if e.1 = [] then none else some (partsOf e.1, decide (e.2 = .directory)) := by
    intro t i
    rw [getElem?_map, bind_map]
    rfl
  funext i
  rw [htable, htable, h]

theorem SamePaths.normalPaths (h : SamePaths s s') (hn : s.NormalPaths) : s'.NormalPaths := by
  intro n hmem
  have hm : (n.path, n.kind) ∈ s'.nodes.map fun n => (n.path, n.kind) := mem_map_of_mem hmem
  rw [h] at hm
  obtain ⟨m, hms, heq⟩ := mem_map.1 hm
  rw [← (Prod.mk.inj heq).1]
  exact hn m hms

theorem Added.normalPaths (h : Added s s' path) (hn : s.NormalPaths) : s'.NormalPaths := by
  obtain ⟨n, rfl, hnodes⟩ := h.nodes
  intro m hm hmp
  rw [hnodes, mem_append, mem_singleton] at hm
  rcases hm with hm | rfl
  · exact hn m hm hmp
  · exact h.normal

theorem Added.isTree (h : Added s s' path) (hs : s.IsTree) : s'.IsTree := by
  have hn := hs.normalPaths
  obtain ⟨n, hpath, hnodes⟩ := h.nodes
  obtain ⟨m, hm, hk, hparent⟩ := h.parent
  have hmn := normal_of_parentPath h.normal hparent
  have htable : s'.table = update s.table s.nodes.length
      (some (partsOf path, decide (n.kind = .directory))) := by
    funext i
    by_cases hi : i = s.nodes.length
    · rw [hi, update_self]
      have : n.path ≠ [] := by rw [hpath]; exact h.normal.ne_nil
      simp [table, hnodes, entry, hpath ▸ this, hpath]
    rw [update_of_ne hi]
    unfold table
    rw [hnodes]
    rcases Nat.lt_or_gt_of_ne hi with hlt | hgt
    · rw [getElem?_append_left hlt]
    · rw [getElem?_eq_none (by simp; omega), getElem?_eq_none (by omega)]
  obtain ⟨j, hj⟩ := mem_iff_getElem?.1 hm
  rw [isTree_iff_table (h.normalPaths hn), htable]
  apply ((isTree_iff_table hn).1 hs).add
  · simp [table]
  · intro k e hk
    obtain ⟨l, hl, hlp, hparts, -⟩ := table_eq_some.1 hk
    exact position_eq_none.1 h.free l (mem_of_getElem? hl)
      ((hn.at hl hlp).ext h.normal hparts)
  · refine table_eq_some.2 ⟨m, hj, hmn.ne_nil, ?_, by simp [hk]⟩
    exact ((parentPath_eq_iff h.normal hmn).1 hparent).symm

theorem Cleared.normalPaths (h : Cleared s s' i) (hn : s.NormalPaths) : s'.NormalPaths := by
  intro m hm hmp
  rw [h] at hm
  obtain ⟨j, hj⟩ := mem_iff_getElem?.1 hm
  rw [getElem?_modify] at hj
  obtain ⟨n, hnj, rfl⟩ := map_eq_some_iff.1 hj
  split_ifs at hmp ⊢ with hij
  · exact absurd rfl hmp
  · exact hn n (mem_of_getElem? hnj) hmp

theorem Cleared.table_eq (h : Cleared s s' i) : s'.table = update s.table i none := by
  funext j
  unfold table
  rw [h, getElem?_modify]
  by_cases hij : i = j
  · subst hij
    rcases s.nodes[i]? with _ | n <;> simp [entry]
  · rw [update_of_ne (Ne.symm hij)]
    simp [hij]

variable {m : Node}

/-- A live node may go exactly when no live node has it as its parent directory. -/
theorem Cleared.isTree_iff (h : Cleared s s' i) (hs : s.IsTree) (hm : s.nodes[i]? = some m)
    (hmp : m.path ≠ []) : s'.IsTree ↔ ∀ n ∈ s.nodes, n.path ≠ [] → n.path ≠ ['/'] →
    parentPath n.path ≠ .ok m.path := by
  have hn := hs.normalPaths
  have hmn := hn.at hm hmp
  rw [isTree_iff_table (h.normalPaths hn), h.table_eq,
    ((isTree_iff_table hn).1 hs).remove_iff (table_of_node hm hmp)]
  constructor
  · intro hleaf n hmem hnp hroot hparent
    obtain ⟨k, hk⟩ := mem_iff_getElem?.1 hmem
    have hnn := hn n hmem hnp
    exact hleaf k _ _ (table_of_node hk hnp) (fun hp => hroot (hnn.partsOf_eq_nil.1 hp))
      ((parentPath_eq_iff hnn hmn).1 hparent)
  intro hleaf k q e hk hq hqm
  obtain ⟨n, hnk, hnp, rfl, -⟩ := table_eq_some.1 hk
  have hnn := hn.at hnk hnp
  exact hleaf n (mem_of_getElem? hnk) hnp (fun hr => hq (hnn.partsOf_eq_nil.2 hr))
    ((parentPath_eq_iff hnn hmn).2 hqm)

/-- Taking away a path that a node has lost already changes nothing. -/
theorem Cleared.isTree_of_dead (h : Cleared s s' i) (hs : s.IsTree) (hm : s.nodes[i]? = some m)
    (hmp : m.path = []) : s'.IsTree := by
  have hn := hs.normalPaths
  have hnone : s.table i = none := by simp [table, hm, entry, hmp]
  rw [isTree_iff_table (h.normalPaths hn), h.table_eq, ← hnone, update_eq_self]
  exact (isTree_iff_table hn).1 hs

/-- A node that is no directory may always go. -/
theorem Cleared.isTree_of_leaf (h : Cleared s s' i) (hs : s.IsTree) (hm : s.nodes[i]? = some m)
    (hmp : m.path ≠ []) (hk : m.kind ≠ .directory) : s'.IsTree := by
  have hn := hs.normalPaths
  have hti := table_of_node hm hmp
  rw [decide_eq_false hk] at hti
  rw [isTree_iff_table (h.normalPaths hn), h.table_eq]
  exact ((isTree_iff_table hn).1 hs).remove_leaf hti

theorem mem_childRewrites {nodes : List Node} :
    ∀ {i : ℕ} {rs : List (ℕ × Str)},
      childRewrites oldPrefix newPrefix replaced i nodes = .ok rs → ∀ k p, (k, p) ∈ rs ↔
        ∃ j n, k = i + j ∧ nodes[j]? = some n ∧ replaced ≠ some k ∧ oldPrefix <+: n.path ∧
          replacePathPrefix n.path oldPrefix newPrefix = .ok p := by
  induction nodes with
  | nil =>
    intro i rs h k p
    cases h
    simp
  | cons n nodes ih =>
    intro i rs h k p
    -- The entry at `k` comes from the first node or from a later one.
    have hsplit : (∃ j m, k = i + j ∧ (n :: nodes)[j]? = some m ∧ replaced ≠ some k ∧
        oldPrefix <+: m.path ∧ replacePathPrefix m.path oldPrefix newPrefix = .ok p) ↔
        (k = i ∧ replaced ≠ some k ∧ oldPrefix <+: n.path ∧
          replacePathPrefix n.path oldPrefix newPrefix = .ok p) ∨
        ∃ j m, k = i + 1 + j ∧ nodes[j]? = some m ∧ replaced ≠ some k ∧ oldPrefix <+: m.path ∧
          replacePathPrefix m.path oldPrefix newPrefix = .ok p := by
      constructor
      · rintro ⟨j, m, rfl, hm, hrest⟩
        cases j with
        | zero =>
          cases hm
          exact .inl ⟨rfl, hrest⟩
        | succ j => exact .inr ⟨j, m, by omega, by simpa using hm, hrest⟩
      · rintro (⟨rfl, hrest⟩ | ⟨j, m, rfl, hm, hrest⟩)
        · exact ⟨0, n, rfl, rfl, hrest⟩
        · exact ⟨j + 1, m, by omega, by simpa using hm, hrest⟩
    rw [hsplit]
    rw [childRewrites] at h
    split_ifs at h with hskip
    · rw [ih h, iff_or_self]
      rintro ⟨rfl, hr, hpre, -⟩
      rcases hskip with hskip | hskip
      · exact absurd hskip.symm hr
      · exact absurd ( isPrefixOf_iff_prefix.2 hpre) (by simpa using hskip)
    obtain ⟨rewritten, hrw, h⟩ := Res.bind_eq_ok.1 h
    obtain ⟨rest, hrest, h⟩ := Res.bind_eq_ok.1 h
    cases h
    simp only [not_or, not_not] at hskip
    rw [mem_cons, ih hrest, Prod.mk.injEq]
    refine or_congr ?_ Iff.rfl
    constructor
    · rintro ⟨rfl, rfl⟩
      exact ⟨rfl, fun hr => hskip.1 hr.symm, isPrefixOf_iff_prefix.1 hskip.2, hrw⟩
    rintro ⟨rfl, -, -, hp⟩
    rw [hrw] at hp
    exact ⟨rfl, (Except.ok.inj hp).symm⟩

theorem setPath_getElem? (i k : ℕ) (path : Str) : (setPath s i path).nodes[k]? =
    if i = k then (s.nodes[k]?).map fun n => { n with path := path } else s.nodes[k]? := by
  rw [setPath, modifyNode, getElem?_modify]
  split_ifs <;> simp

variable {rs : List (ℕ × Str)} {k : ℕ}

theorem foldl_setPath_of_not_mem (h : ∀ p, (k, p) ∉ rs) :
    (rs.foldl (fun s r => setPath s r.1 r.2) s).nodes[k]? = s.nodes[k]? := by
  induction rs generalizing s with
  | nil => rfl
  | cons r rs ih =>
    rw [foldl_cons, ih fun p hp => h p (mem_cons_of_mem _ hp), setPath_getElem?, if_neg]
    rintro rfl
    exact h r.2 mem_cons_self

theorem foldl_setPath_of_mem (h : (k, p) ∈ rs) (hone : ∀ q, (k, q) ∈ rs → q = p) :
    (rs.foldl (fun s r => setPath s r.1 r.2) s).nodes[k]? = (s.nodes[k]?).map fun n =>
    { n with path := p } := by
  induction rs generalizing s with
  | nil => simp at h
  | cons r rs ih =>
    rw [foldl_cons]
    by_cases hrest : (k, p) ∈ rs
    · rw [ih hrest fun q hq => hone q (mem_cons_of_mem _ hq), setPath_getElem?]
      split_ifs
      · rw [Option.map_map]
        rfl
      · rfl
    obtain rfl : (k, p) = r := (mem_cons.1 h).resolve_right hrest
    rw [foldl_setPath_of_not_mem, setPath_getElem?, if_pos rfl]
    intro q hq
    rw [hone q (mem_cons_of_mem _ hq)] at hq
    exact hrest hq

/-- The replaced node, if there is one, loses its path. -/
def makeRoom (s : State) : Option ℕ → State
  | some i => setPath s i []
  | none => s

/-- What a successful `rename_as` found and did. -/
structure Renamed (s s' : State) (oldPath newPath : Str) (oldIndex : ℕ) (replaced : Option ℕ) :
    Prop where
  found : s.position oldPath = some oldIndex
  target : replaced = (s.position newPath).filter (· ≠ oldIndex)
  parent : ∃ m ∈ s.nodes, m.kind = .directory ∧ parentPath newPath = .ok m.path
  nodes : ∃ rs, childRewrites (childPathPrefix oldPath) (childPathPrefix newPath) replaced 0
      s.nodes = .ok rs ∧
    s'.nodes = (rs.foldl (fun s r => setPath s r.1 r.2)
      (setPath (makeRoom s replaced) oldIndex newPath)).nodes

variable {oldPath newPath : Str} {oldIndex : ℕ} {replaced : Option ℕ}

/-- The path a node has after a rename. -/
def renamedPath (oldPath newPath : Str) (oldIndex : ℕ) (replaced : Option ℕ) (k : ℕ)
    (path : Str) : Str :=
  if replaced = some k then []
  else if k = oldIndex then newPath
  else if path = [] then path
  else componentsToPath (movePath (partsOf oldPath) (partsOf newPath) (partsOf path))

section
variable (h : Renamed s s' oldPath newPath oldIndex replaced)
include h

theorem Renamed.ne_replaced : replaced ≠ some oldIndex := by
  rw [h.target]
  intro hr
  simpa using (filter_eq_some_iff.1 hr).2

theorem Renamed.path_ne (hs : s.IsTree)
    (ho : Normal oldPath) (hk : s.nodes[k]? = some n) (hko : k ≠ oldIndex) : n.path ≠ oldPath := by
  intro hp
  obtain ⟨m, hm, hmp⟩ := position_eq_some h.found
  have htk := table_of_node hk (by rw [hp]; exact ho.ne_nil)
  have hto := table_of_node hm (by rw [hmp]; exact ho.ne_nil)
  rw [hp] at htk
  rw [hmp] at hto
  exact hko ((distinct_iff_table hs.normalPaths).1 hs.distinct k oldIndex _ _ _ htk hto)

end

theorem makeRoom_getElem? (replaced : Option ℕ) (k : ℕ) : (makeRoom s replaced).nodes[k]? =
    if replaced = some k then (s.nodes[k]?).map fun n => { n with path := [] }
    else s.nodes[k]? := by
  rcases replaced with _ | i
  · simp [makeRoom]
  · simp only [makeRoom, setPath_getElem?, some.injEq]

theorem plain_movePath (oldPath newPath path : Str) :
    ∀ p ∈ movePath (partsOf oldPath) (partsOf newPath) (partsOf path), Plain p := by
  intro p hp
  unfold movePath at hp
  split_ifs at hp
  · rcases mem_append.1 hp with hp | hp
    · exact plain_partsOf hp
    · exact plain_partsOf (mem_of_mem_drop hp)
  · exact plain_partsOf hp

section
variable (hs : s.IsTree) (ho : Normal oldPath) (hor : oldPath ≠ ['/']) (hn : Normal newPath)
  (hnr : newPath ≠ ['/'])
include hs ho hor hn hnr

/-- Which nodes are rewritten, and to which paths. -/
theorem mem_rewrites (hk : s.nodes[k]? = some n)
    (hrs : childRewrites (childPathPrefix oldPath) (childPathPrefix newPath) replaced 0 s.nodes =
      .ok rs) (p : Str) : (k, p) ∈ rs ↔ replaced ≠ some k ∧ ∃ c, c ≠ [] ∧ n.path ≠ [] ∧
    partsOf n.path = partsOf oldPath ++ c ∧ p = componentsToPath (partsOf newPath ++ c) := by
  have hone : ∀ q ∈ partsOf oldPath, Plain q := fun _ hq => plain_partsOf hq
  have hnewp : ∀ q ∈ partsOf newPath, Plain q := fun _ hq => plain_partsOf hq
  have hold : partsOf oldPath ≠ [] := fun hp => hor (ho.partsOf_eq_nil.1 hp)
  have hnew : partsOf newPath ≠ [] := fun hp => hnr (hn.partsOf_eq_nil.1 hp)
  have hop : childPathPrefix oldPath = componentsToPath (partsOf oldPath) ++ ['/'] := by
    conv_lhs => rw [ho.eq]
    exact childPathPrefix_componentsToPath hone hold
  have hnp : childPathPrefix newPath = componentsToPath (partsOf newPath) ++ ['/'] := by
    conv_lhs => rw [hn.eq]
    exact childPathPrefix_componentsToPath hnewp hnew
  have hreplace : ∀ c, c ≠ [] → replacePathPrefix (componentsToPath (partsOf oldPath ++ c))
      (childPathPrefix oldPath) (childPathPrefix newPath) =
        .ok (componentsToPath (partsOf newPath ++ c)) := by
    intro c hc
    rw [componentsToPath_below hold hc, componentsToPath_below hnew hc, hop, hnp]
    exact replacePathPrefix_append _ _ _
  rw [mem_childRewrites hrs k p]
  constructor
  · rintro ⟨j, m, rfl, hm, hr, hpre, hp⟩
    rw [Nat.zero_add] at hr hk ⊢
    obtain rfl : n = m := some.inj (hk.symm.trans hm)
    have hnpath : n.path ≠ [] := by
      intro he
      rw [he, prefix_nil, hop] at hpre
      simp at hpre
    have hnn := hs.normalPaths.at hk hnpath
    rw [hnn.eq, hop] at hpre
    obtain ⟨c, hc, hparts⟩ := (prefix_iff hone (fun _ hq => plain_partsOf hq) hold).1 hpre
    refine ⟨hr, c, hc, hnpath, hparts, ?_⟩
    rw [hnn.eq, hparts, hreplace c hc] at hp
    exact (Except.ok.inj hp).symm
  · rintro ⟨hr, c, hc, hnpath, hparts, rfl⟩
    have hnn := hs.normalPaths.at hk hnpath
    refine ⟨k, n, (Nat.zero_add k).symm, hk, hr, ?_, ?_⟩
    · rw [hnn.eq, hop]
      exact (prefix_iff hone (fun _ hq => plain_partsOf hq) hold).2 ⟨c, hc, hparts⟩
    · rw [hnn.eq, hparts, hreplace c hc]

variable (h : Renamed s s' oldPath newPath oldIndex replaced)
include h

theorem Renamed.getElem? (k : ℕ) : s'.nodes[k]? = (s.nodes[k]?).map fun n =>
      { n with path := renamedPath oldPath newPath oldIndex replaced k n.path } := by
  obtain ⟨rs, hrs, hnodes⟩ := h.nodes
  rw [hnodes]
  -- Before the rewrites: the replaced node is cleared and the old one carries its new path.
  have hbase : (setPath (makeRoom s replaced) oldIndex newPath).nodes[k]? = _ :=
    setPath_getElem? oldIndex k newPath
  rw [makeRoom_getElem?] at hbase
  rcases hk : s.nodes[k]? with _ | n
  · rw [foldl_setPath_of_not_mem, hbase, hk]
    · simp
    intro p hp
    obtain ⟨j, m, rfl, hm, -⟩ := (mem_childRewrites hrs k p).1 hp
    rw [Nat.zero_add, hm] at hk
    cases hk
  have hmem := mem_rewrites hs ho hor hn hnr hk hrs
  rw [hk] at hbase
  have hold : ∀ c, c ≠ [] → partsOf n.path = partsOf oldPath ++ c → k ≠ oldIndex := by
    rintro c hc hp rfl
    obtain ⟨m, hm, hmp⟩ := position_eq_some h.found
    obtain rfl : n = m := some.inj (hk.symm.trans hm)
    rw [hmp] at hp
    exact hc (self_eq_append_right.1 hp)
  by_cases hin : replaced ≠ some k ∧ ∃ c, c ≠ [] ∧ n.path ≠ [] ∧
      partsOf n.path = partsOf oldPath ++ c
  · obtain ⟨hr, c, hc, hnp, hparts⟩ := hin
    have hkm : (k, componentsToPath (partsOf newPath ++ c)) ∈ rs :=
      (hmem _).2 ⟨hr, c, hc, hnp, hparts, rfl⟩
    rw [foldl_setPath_of_mem hkm, hbase]
    · rw [if_neg (Ne.symm (hold c hc hparts)), if_neg hr]
      simp [renamedPath, hr, hold c hc hparts, hnp, hparts, movePath_append]
    intro q hq
    obtain ⟨-, c', -, -, hparts', rfl⟩ := (hmem q).1 hq
    rw [append_cancel_left (hparts.symm.trans hparts')]
  have hnot : ∀ p, (k, p) ∉ rs := by
    intro p hp
    obtain ⟨hr, c, hc, hnp, hparts, -⟩ := (hmem p).1 hp
    exact hin ⟨hr, c, hc, hnp, hparts⟩
  rw [foldl_setPath_of_not_mem hnot, hbase]
  unfold renamedPath
  by_cases hr : replaced = some k
  · have hko : oldIndex ≠ k := fun he => h.ne_replaced (he ▸ hr)
    simp [hr, hko]
  by_cases hko : oldIndex = k
  · simp [hr, hko]
  by_cases hnp : n.path = []
  · simp only [hr, hko, Ne.symm hko, if_pos hnp, if_false, map_some]
  have hout : ¬ partsOf oldPath <+: partsOf n.path := by
    rintro ⟨c, hc⟩
    by_cases hcn : c = []
    · rw [hcn, append_nil] at hc
      exact h.path_ne hs ho hk (Ne.symm hko) ((hs.normalPaths.at hk hnp).ext ho hc.symm)
    · exact hin ⟨hr, c, hcn, hnp, hc.symm⟩
  simp only [hr, Ne.symm hko, hnp, movePath_of_not hout, if_false, hko,
    map_some, ← (hs.normalPaths.at hk hnp).eq]

theorem Renamed.table_eq : s'.table = s.table.move (partsOf oldPath) (partsOf newPath) replaced := by
  funext k
  rw [table, h.getElem? hs ho hor hn hnr k, move, table]
  rcases hk : s.nodes[k]? with _ | n
  · simp
  by_cases hr : replaced = some k
  · simp [renamedPath, hr, entry]
  by_cases hko : k = oldIndex
  · subst hko
    obtain ⟨m, hm, hmp⟩ := position_eq_some h.found
    obtain rfl : n = m := some.inj (hk.symm.trans hm)
    have hmove := movePath_append (partsOf oldPath) (partsOf newPath) []
    rw [append_nil, append_nil] at hmove
    simp [renamedPath, hr, entry, hmp, ho.ne_nil, hn.ne_nil, hmove]
  by_cases hnp : n.path = []
  · simp [renamedPath, hr, hko, hnp, entry]
  have hplain := plain_movePath oldPath newPath n.path
  simp [renamedPath, hr, hko, hnp, entry, partsOf_componentsToPath hplain,
    (normal_componentsToPath hplain).ne_nil]

theorem Renamed.normalPaths : s'.NormalPaths := by
  intro m hm hmp
  obtain ⟨k, hk⟩ := mem_iff_getElem?.1 hm
  rw [h.getElem? hs ho hor hn hnr k] at hk
  obtain ⟨n, -, rfl⟩ := map_eq_some_iff.1 hk
  dsimp only [renamedPath] at hmp ⊢
  split_ifs at hmp ⊢ with h1 h2 h3
  · exact absurd rfl hmp
  · exact hn
  · exact absurd h3 hmp
  · exact normal_componentsToPath (plain_movePath oldPath newPath n.path)

end

/-- What a rename needs to keep the tree: the new path is not below the old one, no node that
moves meets one that stays, and nodes that stay below the new path find a directory there. -/
structure RenameFits (s : State) (oldPath newPath : Str) : Prop where
  outside : atOrBelow oldPath newPath = false
  apart : ∀ n ∈ s.nodes, ∀ m ∈ s.nodes, n.path ≠ [] → m.path ≠ [] →
    atOrBelow oldPath n.path = true → atOrBelow oldPath m.path = false → m.path ≠ newPath →
      m.path ≠ newPath ++ n.path.drop oldPath.length
  directory : ∀ n ∈ s.nodes, ∀ m ∈ s.nodes, n.path = oldPath → m.path ≠ [] → m.path ≠ ['/'] →
    atOrBelow oldPath m.path = false → parentPath m.path = .ok newPath → n.kind = .directory

section
variable (hs : s.IsTree) (ho : Normal oldPath) (hor : oldPath ≠ ['/']) (hn : Normal newPath)
  (hnr : newPath ≠ ['/']) (hne : oldPath ≠ newPath)
include hs hn hne

theorem Renamed.replaced_iff (h : Renamed s s' oldPath newPath oldIndex replaced) (k : ℕ) :
    replaced = some k ↔ ∃ e, s.table k = some (partsOf newPath, e) := by
  have hdistinct := (distinct_iff_table hs.normalPaths).1 hs.distinct
  have hlive : ∀ {i : ℕ}, s.position newPath = some i →
      ∃ e, s.table i = some (partsOf newPath, e) := by
    intro i hi
    obtain ⟨m, hm, hmp⟩ := position_eq_some hi
    have ht := table_of_node hm (by rw [hmp]; exact hn.ne_nil)
    rw [hmp] at ht
    exact ⟨_, ht⟩
  rw [h.target, filter_eq_some_iff]
  constructor
  · rintro ⟨hk, -⟩
    exact hlive hk
  rintro ⟨e, he⟩
  obtain ⟨n, hk, hnp, hparts, -⟩ := table_eq_some.1 he
  have hpath : n.path = newPath := (hs.normalPaths.at hk hnp).ext hn hparts
  rcases hpos : s.position newPath with _ | i
  · exact absurd hpath (position_eq_none.1 hpos n (mem_of_getElem? hk))
  obtain ⟨e', he'⟩ := hlive hpos
  obtain rfl := hdistinct i k _ _ _ he' he
  refine ⟨rfl, decide_eq_true ?_⟩
  rintro rfl
  obtain ⟨m, hm, hmp⟩ := position_eq_some h.found
  obtain rfl : n = m := some.inj (hk.symm.trans hm)
  exact hne (hmp.symm.trans hpath)

include ho hor hnr

theorem Renamed.movable_iff (h : Renamed s s' oldPath newPath oldIndex replaced) :
    s.table.Movable (partsOf oldPath) (partsOf newPath) replaced ↔
      RenameFits s oldPath newPath := by
  have hnormal := hs.normalPaths
  have hbelow : ∀ {q : Str}, Normal q →
      (atOrBelow oldPath q = false ↔ ¬ partsOf oldPath <+: partsOf q) := by
    intro q hq
    rw [← atOrBelow_iff ho hor hq, Bool.not_eq_true]
  constructor
  · intro hm
    refine ⟨(hbelow hn).2 hm.outside, ?_, ?_⟩
    · intro n hnm m hmm hnp hmp hin hout hmn heq
      obtain ⟨k, hk⟩ := mem_iff_getElem?.1 hnm
      obtain ⟨l, hl⟩ := mem_iff_getElem?.1 hmm
      obtain ⟨c, hc⟩ := (atOrBelow_iff ho hor (hnormal n hnm hnp)).1 hin
      have htk := table_of_node hk hnp
      rw [← hc] at htk
      refine hm.apart k l c _ _ _ htk (table_of_node hl hmp)
        ((hbelow (hnormal m hmm hmp)).1 hout) ?_ ?_
      · intro hr
        obtain ⟨e, he⟩ := (h.replaced_iff hs hn hne l).1 hr
        obtain ⟨m', hm', hmp', hparts, -⟩ := table_eq_some.1 he
        obtain rfl : m = m' := some.inj (hl.symm.trans hm')
        exact hmn ((hnormal m hmm hmp).ext hn hparts)
      rw [append_drop_eq ho hor hn hnr (hnormal n hnm hnp) hc.symm] at heq
      rw [heq, partsOf_componentsToPath]
      intro p hp
      rcases mem_append.1 hp with hp | hp
      · exact plain_partsOf hp
      · exact plain_partsOf (hc ▸ mem_append_right _ hp)
    · intro n hnm m hmm hnp hmp hroot hout hparent
      obtain ⟨k, hk⟩ := mem_iff_getElem?.1 hnm
      obtain ⟨l, hl⟩ := mem_iff_getElem?.1 hmm
      have hmnormal := hnormal m hmm hmp
      have htk := table_of_node hk (by rw [hnp]; exact ho.ne_nil)
      rw [hnp] at htk
      exact of_decide_eq_true (hm.directory k l _ _ _ htk (table_of_node hl hmp)
        ((hbelow hmnormal).1 hout) (fun hp => hroot (hmnormal.partsOf_eq_nil.1 hp))
        ((parentPath_eq_iff hmnormal hn).1 hparent))
  intro hf
  refine ⟨(hbelow hn).1 hf.outside, ?_, ?_⟩
  · intro k l p q d e hk hl hout hr heq
    obtain ⟨n, hnk, hnp, hparts, -⟩ := table_eq_some.1 hk
    obtain ⟨m, hml, hmp, rfl, -⟩ := table_eq_some.1 hl
    have hnn := hnormal.at hnk hnp
    have hmn := hnormal.at hml hmp
    refine hf.apart n (mem_of_getElem? hnk) m (mem_of_getElem? hml) hnp hmp
      ((atOrBelow_iff ho hor hnn).2 ⟨p, hparts.symm⟩) ((hbelow hmn).2 hout) ?_ ?_
    · rintro rfl
      exact hr ((h.replaced_iff hs hn hne l).2 ⟨e, hl⟩)
    · rw [append_drop_eq ho hor hn hnr hnn hparts, ← heq]
      exact hmn.eq
  intro i k q d e hi hk hout hq hqn
  obtain ⟨n, hni, hnp, hparts, rfl⟩ := table_eq_some.1 hi
  obtain ⟨m, hmk, hmp, rfl, -⟩ := table_eq_some.1 hk
  have hmn := hnormal.at hmk hmp
  exact decide_eq_true (hf.directory n (mem_of_getElem? hni) m (mem_of_getElem? hmk)
    ((hnormal.at hni hnp).ext ho hparts) hmp (fun hr => hq (hmn.partsOf_eq_nil.2 hr))
    ((hbelow hmn).2 hout) ((parentPath_eq_iff hmn hn).2 hqn))

end

/-- A rename keeps the tree exactly when its two paths fit. -/
theorem Renamed.isTree_iff (h : Renamed s s' oldPath newPath oldIndex replaced) (hs : s.IsTree)
    (ho : Normal oldPath) (hor : oldPath ≠ ['/']) (hn : Normal newPath) (hnr : newPath ≠ ['/']) :
    s'.IsTree ↔ oldPath = newPath ∨ RenameFits s oldPath newPath := by
  have hnormal := hs.normalPaths
  have htree := (isTree_iff_table hnormal).1 hs
  obtain ⟨n, hno, hnp⟩ := position_eq_some h.found
  have hto := table_of_node hno (by rw [hnp]; exact ho.ne_nil)
  rw [hnp] at hto
  rw [isTree_iff_table (h.normalPaths hs ho hor hn hnr), h.table_eq hs ho hor hn hnr]
  by_cases hne : oldPath = newPath
  · subst hne
    have hr : replaced = none := by
      rw [h.target, h.found]
      simp
    have hsame : s.table.move (partsOf oldPath) (partsOf oldPath) replaced = s.table := by
      funext k
      rw [move, hr, if_neg (by simp)]
      simp [movePath_self]
    rw [hsame]
    exact ⟨fun _ => .inl rfl, fun _ => htree⟩
  have hreplaced := h.replaced_iff hs hn hne
  have hmovable := h.movable_iff hs ho hor hn hnr hne
  have hparts : partsOf oldPath ≠ partsOf newPath := fun hp => hne (ho.ext hn hp)
  rw [or_iff_right hne, ← hmovable]
  constructor
  · exact htree.movable hto hparts hreplaced
  apply htree.move_of_movable hto
  · exact fun hp => hnr (hn.partsOf_eq_nil.1 hp)
  · obtain ⟨m, hm, hk, hparent⟩ := h.parent
    have hmn := normal_of_parentPath hn hparent
    obtain ⟨j, hj⟩ := mem_iff_getElem?.1 hm
    refine ⟨j, table_eq_some.2 ⟨m, hj, hmn.ne_nil, ?_, by simp [hk]⟩⟩
    exact ((parentPath_eq_iff hn hmn).1 hparent).symm
  · exact fun k => (hreplaced k).1

end Ristux.Vfs
