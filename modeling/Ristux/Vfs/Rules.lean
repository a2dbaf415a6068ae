import Ristux.Vfs.Paths

-- A call that succeeds has passed all its checks. The lemmas below turn the success of one step
-- into the fact it checked and the change it made.

namespace Ristux.Vfs
open Lib Ext2 List Proc
open Kernel (Credentials)
variable {s s' : State}

section
theorem require_eq_ok : require c e s = (.ok u, s') ↔ c = true ∧ s' = s := by
  unfold require
  split_ifs with h
  · rw [pure_eq_ok]
    exact ⟨fun hs => ⟨h, hs.2⟩, fun hs => ⟨rfl, hs.2⟩⟩
  · exact ⟨fun hs => absurd hs fail_ne_ok, fun hs => absurd hs.1 h⟩

theorem require_bind_eq_ok :
    (require c e >>= f) s = (.ok a, s') ↔ c = true ∧ f () s = (.ok a, s') := by
  unfold require
  split_ifs with h
  · simp [h]
  · simp [h]

theorem nodeAt_bind_eq_ok : (nodeAt i >>= f) s = (.ok a, s') ↔ ∃ n,
    s.nodes[i]? = some n ∧ f n s = (.ok a, s') := by
  rw [nodeAt, query_bind_eq_ok]
  cases s.nodes[i]? <;> simp

theorem canonical_bind_eq_ok : (canonical i >>= f) s = (.ok a, s') ↔
    f (canonicalNodeIndex s.nodes i) s = (.ok a, s') := by
  rw [canonical, query_bind_eq_ok]
  simp

theorem pushNode_bind_eq_ok : (pushNode n >>= f) s = (.ok a, s') ↔
    f s.nodes.length { s with nodes := s.nodes ++ [n] } = (.ok a, s') := Iff.rfl

theorem rootFor_bind_eq_ok : (rootFor path >>= f) s = (.ok a, s') ↔
    f (if useRootExt2 path then s.rootExt2 else none) s = (.ok a, s') := Iff.rfl

theorem timestamp_bind_eq_ok (h : (timestamp >>= f) s = (.ok a, s')) : ∃ now w,
    f now (s.setWorld w) = (.ok a, s') := by
  obtain ⟨now, s₁, ht, h⟩ := bind_eq_ok.1 h
  rw [timestamp, onExt2] at ht
  obtain ⟨w, -, rfl⟩ := zoom_eq_ok.1 ht
  exact ⟨now, w, h⟩

end

theorem pushOpenHandle_nodes (hp : pushOpenHandle h s = (.ok fd, s')) : s'.nodes = s.nodes := by
  unfold pushOpenHandle at hp
  split at hp <;> (obtain ⟨-, rfl⟩ := Prod.mk.inj hp; rfl)

theorem position_eq_some (h : s.position path = some i) : ∃ n, s.nodes[i]? = some n ∧
    n.path = path := by
  obtain ⟨hi, hp, -⟩ := findIdx?_eq_some_iff_getElem.1 h
  exact ⟨s.nodes[i], getElem?_eq_getElem hi, by simpa using hp⟩

theorem position_eq_none : s.position path = none ↔ ∀ n ∈ s.nodes, n.path ≠ path := by
  rw [State.position, findIdx?_eq_none_iff]
  simp

theorem findNode_eq_some (h : s.findNode path = some n) : n ∈ s.nodes ∧ n.path = path :=
  ⟨mem_of_find?_eq_some h, by simpa using find?_some h⟩

/-- The directory above a normalized path is a directory node. -/
theorem ensureParentDirectory_bind (hn : Normal path)
    (h : (ensureParentDirectory path (some (creds, access)) >>= f) s = (.ok a, s')) :
    (∃ m ∈ s.nodes, m.kind = .directory ∧ parentPath path = .ok m.path) ∧
      f () s = (.ok a, s') := by
  rw [bind_eq_ok] at h
  obtain ⟨_, s₁, hp, h⟩ := h
  simp only [ensureParentDirectory, require_bind_eq_ok, lift_bind_eq_ok,
    query_bind_eq_ok, Res.okOr_eq_ok, require_eq_ok, decide_eq_true_eq] at hp
  obtain ⟨⟨-, hroot⟩, slash, hs, m, hm, hk, -, hs₁⟩ := hp
  obtain ⟨cut, hcut, hparent⟩ := hn.cut hroot
  obtain rfl : cut = slash := Option.some.inj (hcut.symm.trans hs)
  rw [hparent] at hm
  obtain ⟨hmem, hpath⟩ := findNode_eq_some hm
  rw [hs₁] at h
  exact ⟨⟨m, hmem, hk, by rw [hn.parentPath, hpath]⟩, h⟩

end Ristux.Vfs
