import Mathlib.Algebra.BigOperators.Group.Finset.Piecewise
import Mathlib.Algebra.GroupWithZero.Nat
import Mathlib.Algebra.Order.BigOperators.Group.Finset

-- `succ a` lists the successors of node `a`, with repetitions.

namespace Ristux.Lib.Rooted
open List Finset Nat Relation.ReflTransGen
variable {α : Type} {succ succ' : α → List α} {root : α}

def Reach (succ : α → List α) (root a : α) : Prop :=
  Relation.ReflTransGen (fun a b => b ∈ succ a) root a

theorem reach_root : Reach succ root root := refl

variable {b i p x : α}

theorem Reach.step {a : α} (ha : Reach succ root a) (hb : b ∈ succ a) : Reach succ root b :=
  ha.tail hb

variable {a : α}

theorem Reach.cases (h : Reach succ root a) : a = root ∨ ∃ b, Reach succ root b ∧ a ∈ succ b := by
  rcases cases_tail h with h | ⟨b, hb, hab⟩
  · exact .inl h
  · exact .inr ⟨b, hb, hab⟩

/-- A set that contains the root and is closed under the edges contains every reachable
node. -/
theorem Reach.closed {P : α → Prop} (hroot : P root)
    (hstep : ∀ a b, Reach succ root a → P a → b ∈ succ a → P b) (h : Reach succ root a) : P a := by
  induction h with
  | refl => exact hroot
  | tail hb hab ih => exact hstep _ _ hb ih hab

theorem Reach.mono (hsub : ∀ a, Reach succ root a → ∀ b ∈ succ' a, b ∈ succ a)
    (h : Reach succ' root a) : Reach succ root a :=
  h.closed reach_root fun _ _ _ ha hb => ha.step (hsub _ ha _ hb)

theorem reach_congr (heq : ∀ a, Reach succ root a → succ' a = succ a) : Reach succ' root a ↔
    Reach succ root a := by
  refine ⟨Reach.mono fun a ha b hb => heq a ha ▸ hb, fun h => ?_⟩
  refine h.closed reach_root fun b c hb hb' hc => hb'.step ?_
  rwa [heq b hb]

/-- `succ'` has one more edge than `succ`, from the reachable node `p` to `x`. -/
structure Adds (succ : α → List α) (root p x : α) (succ' : α → List α) : Prop where
  reach : Reach succ root p
  perm : (succ' p).Perm (x :: succ p)
  other : ∀ a, Reach succ root a → a ≠ p → succ' a = succ a
  below : ¬Reach succ root x → succ' x = []

namespace Adds
variable {p x : α} (h : Adds succ root p x succ')
include h

theorem subset (ha : Reach succ root a) (hb : b ∈ succ a) : b ∈ succ' a := by
  by_cases hp : a = p
  · subst hp
    exact h.perm.mem_iff.2 (mem_cons_of_mem _ hb)
  · rwa [h.other a ha hp]

theorem step_or (ha : Reach succ root a) (hb : b ∈ succ' a) : Reach succ root b ∨ b = x := by
  by_cases hp : a = p
  · subst hp
    rcases mem_cons.1 (h.perm.mem_iff.1 hb) with rfl | hb
    · exact .inr rfl
    · exact .inl (ha.step hb)
  · rw [h.other a ha hp] at hb
    exact .inl (ha.step hb)

theorem reach_iff : Reach succ' root a ↔ Reach succ root a ∨ a = x := by
  have hup : ∀ {a}, Reach succ root a → Reach succ' root a := fun ha =>
    ha.closed reach_root fun b c hb hb' hc => hb'.step (h.subset hb hc)
  constructor
  · refine fun ha => ha.closed (P := fun a => Reach succ root a ∨ a = x) (.inl reach_root)
      fun b c _ hb hc => ?_
    by_cases hr : Reach succ root b
    · exact h.step_or hr hc
    obtain rfl := hb.resolve_left hr
    rw [h.below hr] at hc
    cases hc
  · rintro (ha | rfl)
    · exact hup ha
    · exact (hup h.reach).step (h.perm.mem_iff.2 mem_cons_self)

end Adds

/-- `succ'` has one edge less than `succ`, from the reachable node `p` to `x`. -/
structure Drops (succ : α → List α) (root p x : α) (succ' : α → List α) : Prop where
  reach : Reach succ root p
  perm : (succ p).Perm (x :: succ' p)
  other : ∀ a, Reach succ root a → a ≠ p → succ' a = succ a

namespace Drops
variable {p x : α} (h : Drops succ root p x succ')
include h

theorem subset (ha : Reach succ root a) (hb : b ∈ succ' a) : b ∈ succ a := by
  by_cases hp : a = p
  · subst hp
    exact h.perm.mem_iff.2 (mem_cons_of_mem _ hb)
  · rwa [← h.other a ha hp]

theorem reach_of (ha : Reach succ' root a) : Reach succ root a :=
  ha.mono fun _ hb _ hc => h.subset hb hc

end Drops

section Count
variable [DecidableEq α] {U : Finset α}

open Classical in
/-- The edges that leave `a`, if `a` can be reached. -/
noncomputable def out (succ : α → List α) (root a : α) : List α :=
  if Reach succ root a then succ a else []

/-- The number of edges from reachable nodes of `U` to `i`. -/
noncomputable def indegree (U : Finset α) (succ : α → List α) (root i : α) : ℕ :=
  ∑ a ∈ U, (out succ root a).count i

omit [DecidableEq α] in
theorem out_of_reach (h : Reach succ root a) : out succ root a = succ a := if_pos h

omit [DecidableEq α] in
theorem out_of_not_reach (h : ¬Reach succ root a) : out succ root a = [] := if_neg h

theorem count_cons_eq (i x : α) (l : List α) :
    (x :: l).count i = l.count i + if i = x then 1 else 0 := by
  by_cases h : i = x
  · subst h
    rw [count_cons_self, if_pos rfl]
  · rw [count_cons_of_ne (Ne.symm h), if_neg h, add_zero]

theorem indegree_congr (heq : ∀ a, Reach succ root a → succ' a = succ a) (i : α) :
    indegree U succ' root i = indegree U succ root i := by
  refine sum_congr rfl fun a _ => ?_
  by_cases ha : Reach succ root a
  · rw [out_of_reach ha, out_of_reach ((reach_congr heq).2 ha), heq a ha]
  · rw [out_of_not_reach ha, out_of_not_reach fun ha' => ha ((reach_congr heq).1 ha')]

theorem count_le_indegree (hU : a ∈ U) (ha : Reach succ root a) (i : α) :
    (succ a).count i ≤ indegree U succ root i := by
  have := single_le_sum (f := fun a => (out succ root a).count i)
    (fun _ _ => zero_le _) hU
  rwa [out_of_reach ha] at this

/-- No edge of the reachable part leads out of it. -/
theorem indegree_eq_zero (hi : ¬Reach succ root i) : indegree U succ root i = 0 := by
  refine sum_eq_zero fun a _ => ?_
  by_cases ha : Reach succ root a
  · rw [out_of_reach ha]
    exact count_eq_zero.2 fun hmem => hi (ha.step hmem)
  · rw [out_of_not_reach ha]
    rfl

/-- A reachable node other than the root has an edge to it. -/
theorem indegree_pos (hU : ∀ a, Reach succ root a → a ∈ U) (h : Reach succ root i) (hi : i ≠ root) :
    0 < indegree U succ root i := by
  rcases h.cases with h | ⟨b, hb, hib⟩
  · exact absurd h hi
  · exact (count_pos_iff.2 hib).trans_le (count_le_indegree (hU b hb) hb i)

theorem Adds.indegree_eq (h : Adds succ root p x succ') (hp : p ∈ U) (i : α) :
    indegree U succ' root i = indegree U succ root i + if i = x then 1 else 0 := by
  have hterm : ∀ a ∈ U, (out succ' root a).count i =
      (out succ root a).count i + if a = p then (if i = x then 1 else 0) else 0 := by
    intro a _
    by_cases ha : Reach succ root a
    · rw [out_of_reach ha, out_of_reach (h.reach_iff.2 (.inl ha))]
      by_cases hap : a = p
      · subst hap
        rw [h.perm.count_eq, count_cons_eq, if_pos rfl]
      · rw [h.other a ha hap, if_neg hap, add_zero]
    have hap : a ≠ p := fun hap => ha (hap ▸ h.reach)
    rw [out_of_not_reach ha, if_neg hap]
    by_cases hax : a = x
    · subst hax
      rw [out, h.below ha, ite_self, add_zero]
    · rw [out_of_not_reach fun ha' => (h.reach_iff.1 ha').elim ha hax, add_zero]
  rw [indegree, sum_congr rfl hterm, sum_add_distrib, sum_ite_eq' U p, if_pos hp]
  rfl

theorem Drops.indegree_le (h : Drops succ root p x succ') (hp : p ∈ U) (i : α) :
    (indegree U succ' root i + if i = x then 1 else 0) ≤ indegree U succ root i := by
  have hterm : ∀ a ∈ U, ((out succ' root a).count i +
      if a = p then (if i = x then 1 else 0) else 0) ≤ (out succ root a).count i := by
    intro a _
    by_cases ha' : Reach succ' root a
    · have ha := h.reach_of ha'
      rw [out_of_reach ha, out_of_reach ha']
      by_cases hap : a = p
      · subst hap
        rw [h.perm.count_eq, count_cons_eq, if_pos rfl]
      · rw [h.other a ha hap, if_neg hap, add_zero]
    rw [out_of_not_reach ha']
    by_cases hap : a = p
    · subst hap
      rw [out_of_reach h.reach, h.perm.count_eq, count_cons_eq, if_pos rfl, count_nil]
      omega
    · rw [if_neg hap]
      exact zero_le _
  have hsum := sum_le_sum hterm
  rwa [sum_add_distrib, sum_ite_eq' U p, if_pos hp] at hsum

end Count

/-- Each of `xs` is a successor of a node seen before it. -/
def Spans (succ : α → List α) : List α → List α → Prop
  | _, [] => True
  | seen, x :: xs => (∃ a ∈ seen, x ∈ succ a) ∧ Spans succ (x :: seen) xs

instance decidableSpans [DecidableEq α] (succ : α → List α) :
    ∀ seen xs, Decidable (Spans succ seen xs)
  | _, [] => inferInstanceAs (Decidable True)
  | seen, x :: xs =>
    have := decidableSpans succ (x :: seen) xs
    inferInstanceAs (Decidable (_ ∧ _))

theorem Spans.reach (h : Spans succ seen xs)
    (hseen : ∀ a ∈ seen, Reach succ root a) : ∀ a ∈ xs, Reach succ root a := by
  induction xs generalizing seen with
  | nil => simp
  | cons x xs ih =>
    obtain ⟨⟨b, hb, hx⟩, hrest⟩ := h
    have hx' : Reach succ root x := (hseen b hb).step hx
    intro a ha
    rcases mem_cons.1 ha with rfl | ha
    · exact hx'
    refine ih hrest (fun c hc => ?_) a ha
    rcases mem_cons.1 hc with rfl | hc
    · exact hx'
    · exact hseen c hc

theorem Spans.reach_iff (h : Spans succ [root] xs)
    (hclosed : ∀ a ∈ root :: xs, ∀ b ∈ succ a, b ∈ root :: xs) : Reach succ root a ↔
    a ∈ root :: xs := by
  constructor
  · exact fun ha => ha.closed mem_cons_self fun b c _ hb hc => hclosed b hb c hc
  intro ha
  rcases mem_cons.1 ha with rfl | ha
  · exact reach_root
  · exact h.reach (by simpa using reach_root) a ha

theorem indegree_eq_sum [DecidableEq α] {L : List α}
    (hL : ∀ a, Reach succ root a ↔ a ∈ L) (hnodup : L.Nodup) (hU : ∀ a ∈ L, a ∈ U) (i : α) :
    indegree U succ root i = (L.map fun a => (succ a).count i).sum := by
  have hsub : L.toFinset ⊆ U := fun a ha => hU a (mem_toFinset.1 ha)
  rw [indegree, ← sum_subset hsub fun a _ ha => ?_, sum_toFinset _ hnodup]
  · refine congrArg List.sum (map_congr_left fun a ha => ?_)
    rw [out_of_reach ((hL a).2 ha)]
  · rw [out_of_not_reach fun hr => ha (mem_toFinset.2 ((hL a).1 hr))]
    rfl

end Ristux.Lib.Rooted
