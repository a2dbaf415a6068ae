import Mathlib.Logic.Basic

-- A `Proc σ ε α` reads and writes a state `σ` and ends in one of three ways: with a value, with
-- an error of type `ε` that the caller may handle, or with a panic that nobody handles.

namespace Ristux.Lib

inductive Fault (ε : Type) where
  | err (e : ε)
  | panic
  deriving DecidableEq, Repr

abbrev Res (ε α : Type) := Except (Fault ε) α

namespace Res
variable {ε α β : Type}

abbrev err (e : ε) : Res ε α := .error (.err e)

/-- `Option::ok_or`. -/
def okOr (o : Option α) (e : ε) : Res ε α :=
  match o with
  | some a => .ok a
  | none => err e

/-- The check behind an index expression or an arithmetic operation. -/
def check (c : Bool) : Res ε Unit := if c then .ok () else .error .panic

theorem bind_eq_ok {f : α → Res ε β} : (x >>= f) = .ok b ↔ ∃ a, x = .ok a ∧ f a = .ok b := by
  cases x with
  | error e => simp [bind, Except.bind]
  | ok a => simp [bind, Except.bind]

@[simp] theorem ok_bind (a : α) (f : α → Res ε β) : ((.ok a : Res ε α) >>= f) = f a := rfl

@[simp] theorem error_bind (e : Fault ε) (f : α → Res ε β) :
    ((.error e : Res ε α) >>= f) = .error e := rfl

theorem check_of {p : Prop} [Decidable p] (h : p) : (check (decide p) : Res ε Unit) = .ok () := by
  simp [check, h]

theorem of_check {p : Prop} [Decidable p] (h : (check (decide p) : Res ε Unit) = .ok u) : p := by
  by_cases hp : p
  · exact hp
  · simp [check, hp] at h

@[simp] theorem okOr_some (a : α) (e : ε) : okOr (some a) e = .ok a := rfl

@[simp] theorem okOr_none (e : ε) : okOr (none : Option α) e = err e := rfl

end Res

def Proc (σ ε α : Type) := σ → Res ε α × σ

namespace Proc
variable {σ ε α β : Type}

instance : Monad (Proc σ ε) where
  pure a := fun s => (.ok a, s)
  bind x f := fun s =>
    match x s with
    | (.ok a, s') => f a s'
    | (.error e, s') => (.error e, s')

def fail (e : ε) : Proc σ ε α := fun s => (Res.err e, s)

/-- A computation that only looks at the state. -/
def query (f : σ → Res ε α) : Proc σ ε α := fun s => (f s, s)

def lift (r : Res ε α) : Proc σ ε α := fun s => (r, s)

def update (f : σ → σ) : Proc σ ε Unit := fun s => (.ok (), f s)

/-- Hand the error of `x` to the caller as a value: `if let Err(e) = x`. -/
def attempt (x : Proc σ ε α) : Proc σ ε (Except ε α) := fun s =>
  match x s with
  | (.ok a, s') => (.ok (.ok a), s')
  | (.error (.err e), s') => (.ok (.error e), s')
  | (.error .panic, s') => (.error .panic, s')

/-- Run `x` for its effect and drop its result: `let _ = x`. -/
def ignore (x : Proc σ ε α) : Proc σ ε Unit := do
  let _ ← attempt x
  pure ()

def forEach (f : α → Proc σ ε Unit) : List α → Proc σ ε Unit
  | [] => pure ()
  | a :: as => do
    f a
    forEach f as

def mapEach (f : α → Proc σ ε β) : List α → Proc σ ε (List β)
  | [] => pure []
  | a :: as => do
    let b ← f a
    let bs ← mapEach f as
    pure (b :: bs)

@[simp] theorem pure_apply (a : α) (s : σ) : (pure a : Proc σ ε α) s = (.ok a, s) := rfl

@[simp] theorem fail_apply (e : ε) (s : σ) : (fail e : Proc σ ε α) s = (Res.err e, s) := rfl

@[simp] theorem query_apply (f : σ → Res ε α) (s : σ) : query f s = (f s, s) := rfl

@[simp] theorem lift_apply (r : Res ε α) (s : σ) : (lift r : Proc σ ε α) s = (r, s) := rfl

@[simp] theorem update_apply (f : σ → σ) (s : σ) : (update f : Proc σ ε Unit) s = (.ok (), f s) :=
  rfl

theorem bind_apply (x : Proc σ ε α) (f : α → Proc σ ε β) (s : σ) : (x >>= f) s = match x s with
      | (.ok a, s') => f a s'
      | (.error e, s') => (.error e, s') := rfl

variable {x : Proc σ ε α} {f : α → Proc σ ε β} {s s' : σ} {a : α}

theorem bind_of_ok (h : x s = (.ok a, s')) : (x >>= f) s = f a s' := by
  rw [bind_apply, h]

theorem bind_of_error (h : x s = (.error e, s')) : (x >>= f) s = (.error e, s') := by
  rw [bind_apply, h]

@[simp] theorem pure_bind (a : α) (f : α → Proc σ ε β) : (pure a >>= f) = f a := rfl

@[simp] theorem fail_bind (e : ε) (f : α → Proc σ ε β) : (fail e >>= f) = fail e := rfl

@[simp] theorem lift_ok_bind (a : α) (f : α → Proc σ ε β) : (lift (.ok a) >>= f) = f a := rfl

@[simp] theorem lift_error_bind (e : Fault ε) (f : α → Proc σ ε β) :
    (lift (.error e) >>= f) = lift (.error e) := rfl

theorem bind_assoc {γ : Type} (x : Proc σ ε α) (f : α → Proc σ ε β) (g : β → Proc σ ε γ) :
    (x >>= f >>= g) = (x >>= fun a => f a >>= g) := by
  funext s
  simp only [bind_apply]
  rcases x s with ⟨_ | _, _⟩ <;> rfl

theorem query_bind_of_ok {f : σ → Res ε α} {g : α → Proc σ ε β} (h : f s = .ok a) :
    (query f >>= g) s = g a s :=
  bind_of_ok (by rw [query_apply, h])

/-- A value comes out of a sequence only through a value of its first part. -/
theorem eq_of_ok (h : (x s).1 = .ok a) : x s = (.ok a, (x s).2) := Prod.ext h rfl

theorem bind_eq_ok : (x >>= f) s = (.ok b, s'') ↔ ∃ a s', x s = (.ok a, s') ∧
    f a s' = (.ok b, s'') := by
  rw [bind_apply]
  rcases x s with ⟨_ | a, s'⟩
  · simp
  constructor
  · exact fun h => ⟨a, s', rfl, h⟩
  · rintro ⟨_, _, ⟨⟩, h⟩
    exact h

end Proc
end Ristux.Lib
