import Ristux.Lib.Proc

-- A computation that returned a value did each of its steps with success: the lemmas `*_eq_ok`
-- say what one step then did to the state, and `bind_eq_ok` takes a sequence apart.

namespace Ristux.Lib
variable {σ τ ε δ α β : Type}

variable {a : α}

namespace Res

def mapErr (f : ε → δ) : Res ε α → Res δ α
  | .ok a => .ok a
  | .error (.err e) => err (f e)
  | .error .panic => .error .panic

@[simp] theorem mapErr_eq_ok {f : ε → δ} : mapErr f x = .ok a ↔ x = .ok a := by
  rcases x with (_ | _) | _ <;> simp [mapErr]

variable {e : ε} {g : σ → σ} {Q : β → Prop}

@[simp] theorem okOr_eq_ok : okOr o e = .ok a ↔ o = some a := by
  cases o <;> simp

end Res

namespace Proc

variable {f : α → Proc σ ε β} {s s' : σ} {b : β}

theorem pure_eq_ok {a : β} : (pure b : Proc σ ε β) s = (.ok a, s') ↔ a = b ∧ s' = s := by
  rw [pure_apply, Prod.mk.injEq, Except.ok.injEq, eq_comm, eq_comm (a := s)]

theorem fail_ne_ok : (fail e : Proc σ ε β) s ≠ (.ok b, s') := by simp

theorem update_eq_ok : (update g : Proc σ ε Unit) s = (.ok u, s') ↔ s' = g s := by
  rw [update_apply, Prod.mk.injEq, eq_comm (a := g s)]
  exact ⟨And.right, fun h => ⟨rfl, h⟩⟩

theorem query_bind_eq_ok {g : σ → Res ε α} :
    (query g >>= f) s = (.ok b, s') ↔ ∃ a, g s = .ok a ∧ f a s = (.ok b, s') := by
  rw [bind_apply, query_apply]
  rcases g s with _ | a <;> simp

theorem lift_bind_eq_ok :
    ((lift r : Proc σ ε α) >>= f) s = (.ok b, s') ↔ ∃ a, r = .ok a ∧ f a s = (.ok b, s') := by
  rcases r with _ | a <;> simp

theorem update_bind_eq_ok {f : Unit → Proc σ ε β} :
    (update g >>= f) s = (.ok b, s') ↔ f () (g s) = (.ok b, s') := by
  rw [bind_apply, update_apply]

def zoom (part : σ → τ) (put : τ → σ → σ) (f : ε → δ) (x : Proc τ ε α) : Proc σ δ α := fun s =>
  ((x (part s)).1.mapErr f, put (x (part s)).2 s)

theorem zoom_eq_ok {part : σ → τ} {put : τ → σ → σ} {f : ε → δ} :
    zoom part put f x s = (.ok a, s') ↔ ∃ t, x (part s) = (.ok a, t) ∧ s' = put t s := by
  unfold zoom
  rcases x (part s) with ⟨r, t⟩
  simp only [Prod.mk.injEq, Res.mapErr_eq_ok]
  constructor
  · rintro ⟨rfl, rfl⟩
    exact ⟨t, ⟨rfl, rfl⟩, rfl⟩
  · rintro ⟨t', ⟨rfl, rfl⟩, rfl⟩
    exact ⟨rfl, rfl⟩

end Proc
end Ristux.Lib
