import Ristux.Lib.Proc

-- `R t s` says that the abstract state `t` describes the concrete state `s`.

namespace Ristux.Lib.Proc
variable {σ τ ε α β : Type} {R : τ → σ → Prop}

def Does (R : τ → σ → Prop) (x : Proc σ ε α) (t : τ) (Q : Res ε α → τ → Prop) : Prop :=
  ∀ s, R t s → ∃ t', R t' (x s).2 ∧ Q (x s).1 t'

/-- The outcome is the value `a` and the abstract state is `t'`. -/
def Ends (a : α) (t' : τ) : Res ε α → τ → Prop := fun r u => r = .ok a ∧ u = t'

/-- The outcome is a value or an error, never a panic. -/
def Either (A : α → τ → Prop) (E : ε → τ → Prop) : Res ε α → τ → Prop
  | .ok a, t => A a t
  | .error (.err e), t => E e t
  | .error .panic, _ => False

namespace Does
variable {x : Proc σ ε α} {f : α → Proc σ ε β} {t t' : τ} {P Q : Res ε α → τ → Prop}
  {Q' : Res ε β → τ → Prop}

variable {a : α}

theorem pure (h : Q (.ok a) t) : Does R (pure a) t Q := fun _ hs => ⟨t, hs, h⟩

theorem fail (h : Q (Res.err e) t) : Does R (fail e) t Q := fun _ hs => ⟨t, hs, h⟩

theorem lift (h : Q r t) : Does R (lift r) t Q := fun _ hs => ⟨t, hs, h⟩

/-- A fact about the abstract state may be taken from any state it describes. -/
theorem assume {p : Prop} (hp : ∀ s, R t s → p) (hx : p → Does R x t Q) : Does R x t Q :=
  fun s hs => hx (hp s hs) s hs

theorem mono (hx : Does R x t P) (h : ∀ r t', P r t' → Q r t') : Does R x t Q := by
  intro s hs
  obtain ⟨t', ht', hP⟩ := hx s hs
  exact ⟨t', ht', h _ _ hP⟩

theorem bind (hx : Does R x t P) (hok : ∀ a t', P (.ok a) t' → Does R (f a) t' Q')
    (herr : ∀ e t', P (.error e) t' → Q' (.error e) t') : Does R (x >>= f) t Q' := by
  intro s hs
  obtain ⟨t', ht', hP⟩ := hx s hs
  rw [bind_apply]
  rcases hxs : x s with ⟨e | a, s'⟩
  · rw [hxs] at ht' hP
    exact ⟨t', ht', herr e t' hP⟩
  · rw [hxs] at ht' hP
    exact hok a t' hP s' ht'

/-- The rule for a first part that cannot fail. -/
theorem step (hx : Does R x t (Ends a t')) (hf : Does R (f a) t' Q') : Does R (x >>= f) t Q' := by
  refine hx.bind (fun b u h => ?_) fun e u h => ?_
  · obtain ⟨hb, rfl⟩ := h
    cases hb
    exact hf
  · cases h.1

theorem query_bind {g : σ → Res ε α} (hg : ∀ s, R t s → g s = r)
    (hf : Does R (Proc.lift r >>= f) t Q') : Does R (Proc.query g >>= f) t Q' := by
  intro s hs
  have := hf s hs
  rwa [bind_apply, query_apply, hg s hs]

theorem attempt_bind {f : Except ε α → Proc σ ε β} (hx : Does R x t P)
    (hok : ∀ a t', P (.ok a) t' → Does R (f (.ok a)) t' Q')
    (herr : ∀ e t', P (Res.err e) t' → Does R (f (.error e)) t' Q')
    (hpanic : ∀ t', P (.error .panic) t' → Q' (.error .panic) t') :
    Does R (attempt x >>= f) t Q' := by
  intro s hs
  obtain ⟨t', ht', hP⟩ := hx s hs
  rw [bind_apply]
  unfold attempt
  rcases hxs : x s with ⟨(e | _) | a, s'⟩
  · rw [hxs] at ht' hP
    exact herr e t' hP s' ht'
  · rw [hxs] at ht' hP
    exact ⟨t', ht', hpanic t' hP⟩
  · rw [hxs] at ht' hP
    exact hok a t' hP s' ht'

theorem attempt_step {f : Except ε α → Proc σ ε β} (hx : Does R x t (Ends a t'))
    (hf : Does R (f (.ok a)) t' Q') : Does R (attempt x >>= f) t Q' := by
  refine hx.attempt_bind (fun b u h => ?_) (fun e u h => ?_) fun u h => ?_
  · obtain ⟨hb, rfl⟩ := h
    cases hb
    exact hf
  · cases h.1
  · cases h.1

section Either
variable {A : α → τ → Prop} {E : ε → τ → Prop} (hx : Does R x t (Either A E))
include hx

theorem mono_either {A' : α → τ → Prop} {E' : ε → τ → Prop} (hok : ∀ a t', A a t' → A' a t')
    (herr : ∀ e t', E e t' → E' e t') : Does R x t (Either A' E') := by
  refine hx.mono fun r t' h => ?_
  rcases r with (e | _) | a
  · exact herr e t' h
  · exact h
  · exact hok a t' h

theorem bind_either (hok : ∀ a t', A a t' → Does R (f a) t' Q')
    (herr : ∀ e t', E e t' → Q' (Res.err e) t') : Does R (x >>= f) t Q' := by
  refine hx.bind hok fun e t' h => ?_
  rcases e with e | _
  · exact herr e t' h
  · exact h.elim

theorem attempt_either {f : Except ε α → Proc σ ε β} (hok : ∀ a t', A a t' → Does R (f (.ok a)) t' Q')
    (herr : ∀ e t', E e t' → Does R (f (.error e)) t' Q') : Does R (attempt x >>= f) t Q' :=
  hx.attempt_bind hok herr fun _ h => h.elim

end Either

/-- A cleanup step that cannot fail. -/
theorem ignore_step {f : Unit → Proc σ ε β} (hx : Does R x t (Ends a t'))
    (hf : Does R (f ()) t' Q') : Does R (ignore x >>= f) t Q' := by
  rw [ignore, bind_assoc]
  exact hx.attempt_step hf

/-- A loop whose steps cannot fail folds the effect of one step over the list. -/
theorem forEach {γ : Type} {f : γ → Proc σ ε Unit} (g : γ → τ → τ) (I : τ → Prop) {as : List γ}
    (hf : ∀ a ∈ as, ∀ t, I t → Does R (f a) t (Ends () (g a t)) ∧ I (g a t)) (ht : I t) :
    Does R (Proc.forEach f as) t (Ends () (as.foldl (fun t a => g a t) t)) := by
  induction as generalizing t with
  | nil => exact Does.pure ⟨rfl, rfl⟩
  | cons a as ih =>
    obtain ⟨h, hI⟩ := hf a List.mem_cons_self t ht
    exact h.step (ih (fun b hb => hf b (List.mem_cons_of_mem _ hb)) hI)

end Does

end Ristux.Lib.Proc
