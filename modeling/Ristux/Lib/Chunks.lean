import Mathlib.Data.List.Forall2
import Mathlib.Tactic.Ring

-- `chunks n xs` is `xs` cut into pieces of `n` elements, the last one possibly shorter.

namespace Ristux.Lib
open List Nat
variable {α : Type}

def chunks (n : ℕ) (xs : List α) : List (List α) :=
  (range ((xs.length + n - 1) / n)).map fun i => (xs.drop (i * n)).take n

theorem chunks_length (n : ℕ) (xs : List α) : (chunks n xs).length = (xs.length + n - 1) / n := by
  simp [chunks]

variable {n : ℕ} {xs : List α} {k : ℕ}

theorem chunks_get (hk : k < (chunks n xs).length) : (chunks n xs).get ⟨k, hk⟩ =
    (xs.drop (k * n)).take n := by
  simp [chunks]

theorem le_mul_of_chunks_le (hn : 0 < n) (hk : (chunks n xs).length ≤ k) : xs.length ≤ k * n := by
  rw [chunks_length] at hk
  have h := lt_mul_div_succ (xs.length + n - 1) hn
  have hmul : n * ((xs.length + n - 1) / n + 1) ≤ n * (k + 1) := Nat.mul_le_mul_left _ (by omega)
  have hsucc : n * (k + 1) = k * n + n := by ring
  omega

@[simp] theorem chunks_nil (n : ℕ) : chunks n ([] : List α) = [] := by
  rcases Nat.eq_zero_or_pos n with rfl | hn
  · simp [chunks]
  · have : (n - 1) / n = 0 := div_eq_of_lt (by omega)
    simp [chunks, this]

theorem chunks_of_ne_nil (hn : 0 < n) (h : xs ≠ []) : chunks n xs =
    xs.take n :: chunks n (xs.drop n) := by
  have hpos : 0 < xs.length := length_pos_iff.2 h
  have hcount : (xs.length + n - 1) / n = ((xs.drop n).length + n - 1) / n + 1 := by
    rw [length_drop]
    by_cases hle : n ≤ xs.length
    · rw [show xs.length + n - 1 = (xs.length - n + n - 1) + n by omega, add_div_right _ hn]
    rw [show xs.length - n + n - 1 = n - 1 by omega, div_eq_of_lt (show n - 1 < n by omega),
      show xs.length + n - 1 = (xs.length - 1) + n by omega, add_div_right _ hn,
      div_eq_of_lt (by omega)]
  unfold chunks
  rw [hcount, range_succ_eq_map, map_cons, map_map]
  congr 1
  · simp
  apply map_congr_left
  simp [drop_drop, succ_mul, Nat.add_comm]

/-- Induction on a list a chunk at a time. -/
theorem chunks_induction (hn : 0 < n) {motive : List α → Prop} (nil : motive [])
    (step : ∀ xs, xs ≠ [] → motive (xs.drop n) → motive xs) (xs : List α) : motive xs := by
  induction hlen : xs.length using Nat.strong_induction_on generalizing xs with
  | _ len ih =>
    by_cases h : xs = []
    · exact h ▸ nil
    · have hpos : 0 < xs.length := length_pos_iff.2 h
      exact step xs h (ih _ (by rw [length_drop]; omega) _ rfl)

theorem chunks_flatten (hn : 0 < n) (xs : List α) : (chunks n xs).flatten = xs := by
  induction xs using chunks_induction hn with
  | nil => simp
  | step xs h ih => rw [chunks_of_ne_nil hn h, flatten_cons, ih, take_append_drop]

theorem length_le_of_mem_chunks {xs c : List α} (h : c ∈ chunks n xs) : c.length ≤ n := by
  obtain ⟨i, -, rfl⟩ := mem_map.1 h
  simp

theorem mem_of_mem_chunks (h : c ∈ chunks n xs) (ha : a ∈ c) : a ∈ xs := by
  obtain ⟨i, -, rfl⟩ := mem_map.1 h
  exact drop_subset _ _ (take_subset _ _ ha)

section Forall₂
variable {β : Type} {R S : α → β → Prop} {as : List α} {bs : List β}

theorem forall₂_mem_right (h : Forall₂ R as bs) (hb : b ∈ bs) : ∃ a ∈ as, R a b := by
  induction h with
  | nil => simp at hb
  | cons hab _ ih =>
    rcases mem_cons.1 hb with rfl | hb
    · exact ⟨_, mem_cons_self, hab⟩
    · obtain ⟨a, ha, hr⟩ := ih hb
      exact ⟨a, mem_cons_of_mem _ ha, hr⟩

theorem forall₂_imp_mem (h : Forall₂ R as bs) (hi : ∀ a, ∀ b ∈ bs, R a b → S a b) :
    Forall₂ S as bs := by
  induction h with
  | nil => exact Forall₂.nil
  | cons hab _ ih =>
    exact Forall₂.cons (hi _ _ mem_cons_self hab)
      (ih fun a b hb => hi a b (mem_cons_of_mem _ hb))

theorem flatMap_of_forall₂ {f : β → List α} {cs : List (List α)} {es : List β}
    (h : Forall₂ (fun c e => f e = c) cs es) : es.flatMap f = cs.flatten := by
  induction h with
  | nil => rfl
  | cons he _ ih => rw [flatMap_cons, flatten_cons, he, ih]

end Forall₂

end Ristux.Lib
