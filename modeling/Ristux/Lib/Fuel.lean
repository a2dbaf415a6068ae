import Mathlib.Order.Nat
import Mathlib.Data.Option.Basic

-- A loop of which it is not yet known that it ends takes a number of steps and gives up after
-- them. `Returns f r` says that with enough steps it ends with `r`. A loop returns one result at
-- most.

namespace Ristux.Lib
open Nat

variable {α β : Type} {f g : ℕ → Option α} {r r' : α}

def Returns (f : ℕ → Option α) (r : α) : Prop := ∃ n, ∀ fuel, n ≤ fuel → f fuel = some r

theorem Returns.unique (h : Returns f r) (h' : Returns f r') : r = r' := by
  obtain ⟨n, hn⟩ := h
  obtain ⟨m, hm⟩ := h'
  exact Option.some.inj ((hn (max n m) (Nat.le_max_left _ _)).symm.trans
    (hm (max n m) (Nat.le_max_right _ _)))

/-- The last step. -/
theorem Returns.stop (h : ∀ fuel, f (fuel + 1) = some r) : Returns f r := by
  refine ⟨1, fun fuel hfuel => ?_⟩
  rw [← Nat.sub_add_cancel hfuel]
  exact h _

/-- One step before the others. -/
theorem Returns.step (h : ∀ fuel, f (fuel + 1) = g fuel) (hg : Returns g r) : Returns f r := by
  obtain ⟨n, hn⟩ := hg
  refine ⟨n + 1, fun fuel hfuel => ?_⟩
  rw [← Nat.sub_add_cancel (Nat.le_of_add_left_le hfuel), h]
  exact hn _ (le_sub_of_add_le hfuel)

theorem Returns.const (r : α) : Returns (fun _ => some r) r := ⟨0, fun _ _ => rfl⟩

/-- One loop after another. -/
theorem Returns.bind {k : ℕ → α → Option β} (h : Returns f r)
    (hk : Returns (fun fuel => k fuel r) s) : Returns (fun fuel => (f fuel).bind (k fuel)) s := by
  obtain ⟨n, hn⟩ := h
  obtain ⟨m, hm⟩ := hk
  refine ⟨max n m, fun fuel hfuel => ?_⟩
  change (f fuel).bind (k fuel) = some s
  rw [hn fuel (le_trans (le_max_left _ _) hfuel)]
  exact hm fuel (le_trans (le_max_right _ _) hfuel)

end Ristux.Lib
