import Mathlib.Data.List.Nodup
import Mathlib.Data.List.Perm.Basic

-- `kids a` are the children of `a`. A tree is a root with a height: at height zero the root is a
-- leaf, above that it is an inner node over the trees of its children. A forest is a list of such
-- trees.

namespace Ristux.Lib.Forest
open List
variable {α : Type} (kids : α → List α)

def inner : ℕ → α → List α
  | 0, _ => []
  | level + 1, a => a :: (kids a).flatMap (inner level)

def leaves : ℕ → α → List α
  | 0, a => [a]
  | level + 1, a => (kids a).flatMap (leaves level)

/-- All nodes of a tree, the inner ones and the leaves. -/
def nodes : ℕ → α → List α
  | 0, a => [a]
  | level + 1, a => a :: (kids a).flatMap (nodes level)

def allInner (roots : List (ℕ × α)) : List α := roots.flatMap fun r => inner kids r.1 r.2

def allLeaves (roots : List (ℕ × α)) : List α := roots.flatMap fun r => leaves kids r.1 r.2

def allNodes (roots : List (ℕ × α)) : List α := roots.flatMap fun r => nodes kids r.1 r.2

variable {kids}

theorem nodes_perm (level : ℕ) (a : α) :
    (nodes kids level a).Perm (inner kids level a ++ leaves kids level a) := by
  induction level generalizing a with
  | zero => simp [nodes, inner, leaves]
  | succ level ih =>
    refine Perm.cons a ?_
    refine (Perm.flatMap_left _ fun k _ => ih k).trans ?_
    exact (flatMap_append_perm _ _ _).symm

theorem allNodes_perm (roots : List (ℕ × α)) :
    (allNodes kids roots).Perm (allInner kids roots ++ allLeaves kids roots) := by
  refine (Perm.flatMap_left _ fun r _ => nodes_perm r.1 r.2).trans ?_
  exact (flatMap_append_perm _ _ _).symm

variable {roots : List (ℕ × α)} {a : α}

theorem mem_allNodes :
    a ∈ allNodes kids roots ↔ a ∈ allInner kids roots ∨ a ∈ allLeaves kids roots := by
  rw [(allNodes_perm roots).mem_iff, mem_append]

theorem root_mem_nodes (level : ℕ) (a : α) : a ∈ nodes kids level a := by
  cases level <;> simp [nodes]

section Congr
variable {kids' : α → List α}

/-- A tree is determined by the children of its inner nodes. -/
theorem tree_congr (h : ∀ n ∈ inner kids level a, kids' n = kids n) :
    inner kids' level a = inner kids level a ∧ leaves kids' level a = leaves kids level a ∧
      nodes kids' level a = nodes kids level a := by
  induction level generalizing a with
  | zero => exact ⟨rfl, rfl, rfl⟩
  | succ level ih =>
    have hroot : kids' a = kids a := h a (by simp [inner])
    have hkid : ∀ k ∈ kids a, ∀ n ∈ inner kids level k, kids' n = kids n := by
      intro k hk n hn
      refine h n ?_
      exact mem_cons_of_mem _ (mem_flatMap.2 ⟨k, hk, hn⟩)
    simp only [inner, leaves, nodes, hroot]
    refine ⟨?_, ?_, ?_⟩
    · rw [flatMap_congr fun k hk => (ih (hkid k hk)).1]
    · rw [flatMap_congr fun k hk => (ih (hkid k hk)).2.1]
    · rw [flatMap_congr fun k hk => (ih (hkid k hk)).2.2]

theorem forest_congr (h : ∀ n ∈ allInner kids roots, kids' n = kids n) :
    allLeaves kids' roots = allLeaves kids roots ∧ allNodes kids' roots = allNodes kids roots := by
  have hroot : ∀ r ∈ roots, ∀ n ∈ inner kids r.1 r.2, kids' n = kids n :=
    fun r hr n hn => h n (mem_flatMap.2 ⟨r, hr, hn⟩)
  refine ⟨?_, ?_⟩
  · exact flatMap_congr fun r hr => (tree_congr (hroot r hr)).2.1
  · exact flatMap_congr fun r hr => (tree_congr (hroot r hr)).2.2

end Congr

end Ristux.Lib.Forest
