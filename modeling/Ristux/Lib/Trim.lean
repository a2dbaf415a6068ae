import Mathlib.Data.List.DropRight

-- `trimBy p` drops the entries of `p` from both ends. Trimming by less first changes nothing
-- (`trimBy_trimBy`), and what begins and ends outside `p` is kept.

namespace Ristux.Lib
open List
variable {α : Type} {p q : α → Bool} {l : List α}

def trimBy (p : α → Bool) (l : List α) : List α :=
  ((l.dropWhile p).reverse.dropWhile p).reverse

section
variable (h : ∀ a, p a = true → q a = true)
include h

theorem dropWhile_dropWhile_of_imp (l : List α) : (l.dropWhile p).dropWhile q = l.dropWhile q := by
  induction l with
  | nil => rfl
  | cons a l ih =>
    by_cases hp : p a = true
    · rw [dropWhile_cons_of_pos hp, dropWhile_cons_of_pos (h a hp), ih]
    · rw [dropWhile_cons_of_neg hp]

theorem rdropWhile_rdropWhile_of_imp (l : List α) :
    (l.rdropWhile p).rdropWhile q = l.rdropWhile q := by
  simp only [rdropWhile, reverse_reverse]
  rw [dropWhile_dropWhile_of_imp h]

theorem dropWhile_rdropWhile_comm (l : List α) :
    (l.rdropWhile p).dropWhile q = (l.dropWhile q).rdropWhile p := by
  induction l using reverseRecOn with
  | nil => rfl
  | append_singleton l a ih =>
    by_cases hp : p a = true
    · rw [rdropWhile_concat_pos _ _ _ hp, ih, dropWhile_append]
      split
      · rename_i hempty
        rw [isEmpty_iff.1 hempty, dropWhile_cons_of_pos (h a hp)]
        rfl
      · rw [rdropWhile_concat_pos _ _ _ hp]
    rw [rdropWhile_concat_neg _ _ _ hp, dropWhile_append]
    split
    · by_cases hq : q a = true
      · rw [dropWhile_cons_of_pos hq]
        rfl
      · rw [dropWhile_cons_of_neg hq]
        exact (rdropWhile_concat_neg p [] a hp).symm
    · rw [rdropWhile_concat_neg _ _ _ hp]

theorem trimBy_trimBy (l : List α) : trimBy q (trimBy p l) = trimBy q l := by
  change (((l.dropWhile p).rdropWhile p).dropWhile q).rdropWhile q = (l.dropWhile q).rdropWhile q
  rw [dropWhile_rdropWhile_comm h, rdropWhile_rdropWhile_of_imp h, dropWhile_dropWhile_of_imp h]

end

/-- What begins and ends outside `p` stays when entries of `p` are put around it. -/
theorem trimBy_append (hhead : ∀ a, l.head? = some a → p a = false)
    (hlast : ∀ a, l.getLast? = some a → p a = false) (hne : l ≠ [])
    (hx : ∀ a ∈ x, p a = true) (hy : ∀ a ∈ y, p a = true) : trimBy p (x ++ l ++ y) = l := by
  have hdrop : (x ++ l ++ y).dropWhile p = l ++ y := by
    rw [append_assoc, dropWhile_append_of_pos hx]
    cases l with
    | nil => exact absurd rfl hne
    | cons a l => simp [hhead a rfl]
  have hrev : (l ++ y).reverse.dropWhile p = l.reverse := by
    rw [reverse_append, dropWhile_append_of_pos fun a ha => hy a (mem_reverse.1 ha)]
    cases hr : l.reverse with
    | nil => exact absurd (reverse_eq_nil_iff.1 hr) hne
    | cons a r =>
      have ha : l.getLast? = some a := by
        rw [← head?_reverse, hr, head?_cons]
      simp [hlast a ha]
  rw [trimBy, hdrop, hrev, reverse_reverse]

theorem trimBy_eq_self (h : ∀ a ∈ l, p a = false) : trimBy p l = l := by
  by_cases hne : l = []
  · subst hne
    rfl
  have := trimBy_append (x := []) (y := []) (fun a ha => h a (mem_of_head? ha))
    (fun a ha => h a (mem_of_getLast? ha)) hne (by simp) (by simp)
  simpa using this

theorem length_trimBy_le (p : α → Bool) (l : List α) : (trimBy p l).length ≤ l.length := by
  rw [trimBy, length_reverse]
  calc ((l.dropWhile p).reverse.dropWhile p).length
      ≤ (l.dropWhile p).reverse.length := (dropWhile_sublist p).length_le
    _ = (l.dropWhile p).length := length_reverse
    _ ≤ l.length := (dropWhile_sublist p).length_le

theorem head?_trimBy (h : (trimBy p l).head? = some a) : p a = false := by
  have hprefix : trimBy p l <+: l.dropWhile p := rdropWhile_prefix p _
  have hne : trimBy p l ≠ [] := by
    intro hnil
    rw [hnil] at h
    cases h
  obtain ⟨t, ht⟩ := hprefix
  have hhead : (l.dropWhile p).head? = some a := by
    rw [← ht, head?_append_of_ne_nil _ hne, h]
  have := head?_dropWhile_not p l
  rw [hhead] at this
  simpa using this

end Ristux.Lib
