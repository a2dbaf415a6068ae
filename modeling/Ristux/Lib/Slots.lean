import Mathlib.Data.List.Basic

-- A table is a list of slots, some of them empty; slots behind its end count as empty. A new
-- entry takes the first free slot, or one more at the end.

namespace Ristux.Lib.Slots
open List

variable {α : Type} {l : List (Option α)} {x : Option α} {i k : ℕ}

theorem join_set (hi : i < l.length) :
    ((l.set i x)[k]?).join = if k = i then x else (l[k]?).join := by
  rw [getElem?_set]
  by_cases hk : i = k
  · rw [if_pos hk, if_pos hi, if_pos hk.symm]
    rfl
  · rw [if_neg hk, if_neg (Ne.symm hk)]

theorem join_append : ((l ++ [x])[k]?).join = if k = l.length then x else (l[k]?).join := by
  by_cases hk : k = l.length
  · simp [hk]
  rw [if_neg hk]
  rcases Nat.lt_or_gt_of_ne hk with hlt | hgt
  · rw [getElem?_append_left hlt]
  · rw [getElem?_eq_none (by simp; omega), getElem?_eq_none (by omega)]

theorem free_of_findIdx? (h : l.findIdx? Option.isNone = some i) :
    i < l.length ∧ (l[i]?).join = none := by
  obtain ⟨hlt, hnone, -⟩ := findIdx?_eq_some_iff_getElem.1 h
  rw [Option.isNone_iff_eq_none] at hnone
  exact ⟨hlt, by rw [getElem?_eq_getElem hlt, hnone]; rfl⟩

theorem lt_of_join (h : (l[i]?).join = some a) : i < l.length := by
  by_contra hge
  rw [getElem?_eq_none (by omega)] at h
  cases h

end Ristux.Lib.Slots
