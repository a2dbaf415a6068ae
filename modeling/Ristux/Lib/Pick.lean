import Mathlib.Data.List.Basic

-- Among the entries of a list that satisfy `p`, the first that is strong is picked, and the first
-- of all if none is strong.

namespace Ristux.Lib
open List Option
variable {α : Type} {p q strong : α → Bool} {l : List α} {a b d : α}

def pick (p strong : α → Bool) (l : List α) : Option α :=
  (l.find? fun a => p a && strong a).or (l.find? p)

theorem pick_eq_some (h : pick p strong l = some a) : a ∈ l ∧ p a = true := by
  rcases or_eq_some_iff.1 h with h | ⟨-, h⟩
  · have hp := find?_some h
    rw [Bool.and_eq_true] at hp
    exact ⟨mem_of_find?_eq_some h, hp.1⟩
  · exact ⟨mem_of_find?_eq_some h, find?_some h⟩

theorem strong_of_pick (h : pick p strong l = some a) (hb : b ∈ l) (hp : p b = true)
    (hs : strong b = true) : strong a = true := by
  rcases or_eq_some_iff.1 h with h | ⟨h, -⟩
  · have hp := find?_some h
    rw [Bool.and_eq_true] at hp
    exact hp.2
  · have := find?_eq_none.1 h b hb
    simp [hp, hs] at this

theorem exists_pick (hb : b ∈ l) (hp : p b = true) : ∃ a, pick p strong l = some a := by
  refine isSome_iff_exists.1 ?_
  rw [pick, isSome_or, Bool.or_eq_true]
  exact .inr (find?_isSome.2 ⟨b, hb, hp⟩)

theorem pick_eq_find? (h : ∀ b ∈ l, p b = true → strong b = false) : pick p strong l = l.find? p := by
  have hnone : (l.find? fun a => p a && strong a) = none :=
    find?_eq_none.2 fun b hb => by
      cases hp : p b with
      | false => simp
      | true => simp [h b hb hp]
  rw [pick, hnone, none_or]

/-- An entry takes the place of one that was picked if it is strong and that is not. -/
def better (strong : α → Bool) (a : α) : Option α → Option α
  | some d => if strong d || !strong a then some d else some a
  | none => some a

theorem pick_append (l : List α) (a : α) : pick p strong (l ++ [a]) =
    if p a then better strong a (pick p strong l) else pick p strong l := by
  have hfound : ∀ d, (l.find? fun a => p a && strong a) = some d → strong d = true := fun d hd =>
    (Bool.and_eq_true _ _ ▸ find?_some hd : _ ∧ _).2
  rw [pick, pick, find?_append, find?_append]
  cases hp : p a with
  | false => simp [hp]
  | true =>
    cases hs : l.find? fun a => p a && strong a with
    | some d => simp [better, hfound d hs]
    | none =>
      cases hd : l.find? p with
      | none => cases hsa : strong a <;> simp [better, hp, hsa]
      | some d =>
        have hweak : strong d = false := by
          have := find?_eq_none.1 hs d (mem_of_find?_eq_some hd)
          simpa [find?_some hd] using this
        cases hsa : strong a <;> simp [better, hp, hsa, hweak]

/-- The first entry that satisfies `p` is also the first that satisfies a stronger property, if it
has it. -/
theorem find?_of_imp (h : l.find? p = some a) (ha : q a = true)
    (himp : ∀ b ∈ l, q b = true → p b = true) : l.find? q = some a := by
  induction l with
  | nil => cases h
  | cons b l ih =>
    rw [find?_cons] at h ⊢
    cases hp : p b with
    | true =>
      rw [hp] at h
      cases h
      rw [ha]
    | false =>
      rw [hp] at h
      have hq : q b = false := by
        cases hq : q b with
        | false => rfl
        | true =>
          rw [himp b mem_cons_self hq] at hp
          cases hp
      rw [hq]
      exact ih h (forall_mem_cons.1 himp).2

end Ristux.Lib
