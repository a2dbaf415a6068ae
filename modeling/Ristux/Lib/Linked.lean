import Mathlib.Data.List.Basic

-- A singly linked list is a function `next` from nodes to nodes and a value `nil` that ends it.
-- `Linked next nil p l` says that following `next` from `p` visits the nodes `l`.

namespace Ristux.Lib
open List

variable {α : Type} {next next' : α → α} {nil : α} {p q : α} {l pre post post' : List α}

def Linked (next : α → α) (nil : α) : α → List α → Prop
  | p, [] => p = nil
  | p, a :: l => p = a ∧ a ≠ nil ∧ Linked next nil (next a) l

/-- The link that leads to what comes after `pre`: the last node's, or the head. -/
def lastLink (next : α → α) (head : α) (pre : List α) : α :=
  match pre.getLast? with
  | none => head
  | some q => next q

theorem lastLink_concat (next : α → α) (head q : α) (pre : List α) :
    lastLink next head (pre ++ [q]) = next q := by
  rw [lastLink, getLast?_concat]

theorem lastLink_congr (head : α) (heq : ∀ a ∈ pre, next' a = next a) :
    lastLink next' head pre = lastLink next head pre := by
  rcases eq_nil_or_concat pre with rfl | ⟨init, q, rfl⟩
  · rfl
  · rw [concat_eq_append] at *
    rw [lastLink_concat, lastLink_concat, heq q (by simp)]

theorem Linked.congr (h : Linked next nil p l) (heq : ∀ a ∈ l, next' a = next a) :
    Linked next' nil p l := by
  induction l generalizing p with
  | nil => exact h
  | cons a l ih =>
    obtain ⟨rfl, hne, hl⟩ := h
    refine ⟨rfl, hne, ?_⟩
    rw [heq p mem_cons_self]
    exact ih hl (forall_mem_cons.1 heq).2

/-- The part of a list from some node on. -/
theorem Linked.of_append (h : Linked next nil p (pre ++ post)) :
    Linked next nil (lastLink next p pre) post := by
  induction pre generalizing p with
  | nil => exact h
  | cons a pre ih =>
    obtain ⟨rfl, -, hl⟩ := h
    have hrest := ih hl
    cases pre with
    | nil => exact hrest
    | cons b pre =>
      exact hrest

/-- The nodes of `pre` with a new rest. Of the links of `pre` only the last may have changed. -/
theorem Linked.splice (h : Linked next nil p (pre ++ post))
    (hhead : pre ≠ [] → p' = p) (heq : ∀ a ∈ pre.dropLast, next' a = next a)
    (hpost : Linked next' nil (lastLink next' p' pre) post') :
    Linked next' nil p' (pre ++ post') := by
  induction pre generalizing p p' with
  | nil => exact hpost
  | cons a pre ih =>
    obtain ⟨rfl, hne, hl⟩ := h
    obtain rfl := hhead (cons_ne_nil _ _)
    refine ⟨rfl, hne, ?_⟩
    cases pre with
    | nil => exact hpost
    | cons b pre =>
      have hstep : next' p' = next p' := heq p' (by simp)
      refine ih hl (fun _ => hstep) (fun c hc => heq c ?_) ?_
      · rw [dropLast_cons_of_ne_nil (cons_ne_nil _ _)]
        exact mem_cons_of_mem _ hc
      · rw [lastLink, getLast?_cons_cons] at hpost
        exact hpost

end Ristux.Lib
