import Mathlib.Data.List.Induction
import Mathlib.Data.List.Forall2

-- What holds of the result of a loop in `Except`, if there is one: an invariant of its steps, or
-- one that speaks of the entries done so far.

namespace Ristux.Lib.Fallible
open List
variable {ε α β γ : Type}

variable {f : α → Except ε β} {x : Except ε α} {b : β}

theorem bind_eq_ok : x >>= f = .ok b ↔ ∃ a, x = .ok a ∧ f a = .ok b := by
  cases x with
  | error e => simp [bind, Except.bind]
  | ok a => simp [bind, Except.bind]

theorem bind_congr_ok {g : α → Except ε β} (h : ∀ a, x = .ok a → f a = g a) : x >>= f = x >>= g := by
  cases x with
  | error e => rfl
  | ok a => exact h a rfl

theorem map_eq_ok {f : α → β} : x.map f = .ok b ↔ ∃ a, x = .ok a ∧ f a = b := by
  cases x with
  | error e => simp [Except.map]
  | ok a => simp [Except.map]

theorem pure_eq_ok {a b : α} : (pure a : Except ε α) = .ok b ↔ a = b :=
  ⟨Except.ok.inj, fun h => h ▸ rfl⟩

variable {l : List α}

variable {P : List α → β → Prop}

/-- The invariant speaks of the part of the list that has been worked on. -/
theorem foldlM_prefix {f : β → α → Except ε β} (h0 : P [] b)
    (hstep : ∀ done a b b', done ++ [a] <+: l → P done b → f b a = .ok b' → P (done ++ [a]) b')
    (h : l.foldlM f b = .ok r) : P l r := by
  induction l using reverseRecOn generalizing r with
  | nil =>
    cases h
    exact h0
  | append_singleton l a ih =>
    rw [foldlM_append, bind_eq_ok] at h
    obtain ⟨b', hl, ha⟩ := h
    rw [foldlM_cons, bind_eq_ok] at ha
    obtain ⟨r', hr, hnil⟩ := ha
    cases hnil
    refine hstep l a b' r (prefix_refl _) (ih (fun done a b b' hpre => ?_) hl) hr
    exact hstep done a b b' (hpre.trans (prefix_append _ _))

theorem foldlM_invariant {f : β → α → Except ε β} {P : β → Prop} (h0 : P b)
    (hstep : ∀ a ∈ l, ∀ b b', P b → f b a = .ok b' → P b') (h : l.foldlM f b = .ok r) : P r :=
  foldlM_prefix (P := fun _ b => P b) h0
    (fun done a b b' hpre hb hf =>
      hstep a (hpre.subset (by simp)) b b' hb hf) h

/-- Each element has its turn: what its step brings about and the other steps keep is there in the
end. -/
theorem foldlM_visits {f : β → α → Except ε β} {Q : β → Prop} {l : List α} {a : α} {b r : β}
    (ha : a ∈ l) (hdo : ∀ b b', f b a = .ok b' → Q b')
    (hkeep : ∀ c ∈ l, ∀ b b', f b c = .ok b' → Q b → Q b') (h : l.foldlM f b = .ok r) : Q r := by
  induction l generalizing b with
  | nil => simp at ha
  | cons c l ih =>
    rw [foldlM_cons, bind_eq_ok] at h
    obtain ⟨b', hb', h⟩ := h
    have hrest := (forall_mem_cons.1 hkeep).2
    rcases mem_cons.1 ha with rfl | ha
    · exact foldlM_invariant (hdo b b' hb') (fun d hd x y hx hxy => hrest d hd x y hxy hx) h
    · exact ih ha hrest h

/-- The steps may use a fact `B` about the result that every earlier state inherits from it. -/
theorem foldlM_of_final {f : β → α → Except ε β} {P B : β → Prop} (h0 : P b)
    (hback : ∀ a ∈ l, ∀ b b', f b a = .ok b' → B b' → B b)
    (hstep : ∀ a ∈ l, ∀ b b', P b → f b a = .ok b' → B b' → P b') (h : l.foldlM f b = .ok r)
    (hr : B r) : P r ∧ B b := by
  induction l using reverseRecOn generalizing r with
  | nil =>
    cases h
    exact ⟨h0, hr⟩
  | append_singleton l a ih =>
    rw [foldlM_append, bind_eq_ok] at h
    obtain ⟨b', hl, ha⟩ := h
    rw [foldlM_cons, bind_eq_ok] at ha
    obtain ⟨r', hr', hnil⟩ := ha
    cases hnil
    have hb' := hback a (by simp) b' r hr' hr
    obtain ⟨hP, hB⟩ := ih (fun x hx => hback x (mem_append_left _ hx))
      (fun x hx => hstep x (mem_append_left _ hx)) hl hb'
    exact ⟨hstep a (by simp) b' r hP hr' hr, hB⟩

/-- Two loops that a map of the states relates. -/
theorem foldlM_comp {f : γ → α → Except ε γ} {g : β → α → Except ε β} {φ : β → γ}
    (h : ∀ a ∈ l, ∀ b, f (φ b) a = (g b a).map φ) (b : β) : l.foldlM f (φ b) =
    (l.foldlM g b).map φ := by
  induction l generalizing b with
  | nil => rfl
  | cons a l ih =>
    rw [foldlM_cons, foldlM_cons, h a mem_cons_self]
    cases g b a with
    | error e => rfl
    | ok b' => exact ih (forall_mem_cons.1 h).2 b'

theorem mapM_eq_ok : ∀ {r : List β}, l.mapM f = .ok r → Forall₂ (fun a b => f a = .ok b) l r := by
  induction l with
  | nil =>
    intro r h
    cases h
    exact .nil
  | cons a l ih =>
    intro r h
    rw [mapM_cons, bind_eq_ok] at h
    obtain ⟨b, hb, h⟩ := h
    rw [bind_eq_ok] at h
    obtain ⟨bs, hbs, h⟩ := h
    cases h
    exact .cons hb (ih hbs)

variable {r : List β}

theorem exists_of_mem_mapM (h : l.mapM f = .ok r) (hb : b ∈ r) : ∃ a ∈ l, f a = .ok b := by
  have hall := mapM_eq_ok h
  clear h
  induction hall with
  | nil => simp at hb
  | @cons a b' l r hab _ ih =>
    rcases mem_cons.1 hb with rfl | hb
    · exact ⟨a, mem_cons_self, hab⟩
    · obtain ⟨a', ha', hf⟩ := ih hb
      exact ⟨a', mem_cons_of_mem _ ha', hf⟩

theorem mem_mapM_of_mem (h : l.mapM f = .ok r) (ha : a ∈ l) : ∃ b ∈ r, f a = .ok b := by
  have hall := mapM_eq_ok h
  clear h
  induction hall with
  | nil => simp at ha
  | @cons a' b l r hab _ ih =>
    rcases mem_cons.1 ha with rfl | ha
    · exact ⟨b, mem_cons_self, hab⟩
    · obtain ⟨b', hb', hf⟩ := ih ha
      exact ⟨b', mem_cons_of_mem _ hb', hf⟩

end Ristux.Lib.Fallible
