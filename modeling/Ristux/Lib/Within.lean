import Ristux.Lib.Proc
import Mathlib.Order.Defs.Unbundled

-- `Within R x` says that `x` takes every state to one that `R` relates it to, whatever `x` ends
-- with.

namespace Ristux.Lib.Proc
variable {σ ε α β : Type} {R : σ → σ → Prop}

def Within (R : σ → σ → Prop) (x : Proc σ ε α) : Prop := ∀ s, R s (x s).2

theorem within_pure [Std.Refl R] (a : α) : Within R (pure a : Proc σ ε α) :=
  fun s => Std.Refl.refl s

theorem within_fail [Std.Refl R] (e : ε) : Within R (fail e : Proc σ ε α) :=
  fun s => Std.Refl.refl s

theorem Within.bind [IsTrans σ R] {f : α → Proc σ ε β} (hx : Within R x)
    (hf : ∀ a, Within R (f a)) : Within R (x >>= f) := by
  intro s
  have h := hx s
  cases hr : x s with
  | mk r t =>
    rw [hr] at h
    cases r with
    | ok a =>
      rw [bind_of_ok hr]
      exact IsTrans.trans _ _ _ h (hf a t)
    | error e =>
      rw [bind_of_error hr]
      exact h

theorem Within.mono {S : σ → σ → Prop} (hx : Within R x) (h : ∀ s t, R s t → S s t) : Within S x :=
  fun s => h _ _ (hx s)

theorem within_ite {c : Prop} [Decidable c] (hx : c → Within R x)
    (hy : ¬ c → Within R y) : Within R (if c then x else y) := by
  by_cases h : c
  · rw [if_pos h]
    exact hx h
  · rw [if_neg h]
    exact hy h

end Ristux.Lib.Proc
