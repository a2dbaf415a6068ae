import Mathlib.Data.List.Induction

-- Some steps of a machine raise a flag and others lower it. The flag is up at the end of a run
-- exactly when it was raised and not lowered since.

namespace Ristux.Lib
open List

variable {σ ι : Type*} {step : σ → ι → σ} {raises lowers : σ → ι → Prop}

/-- A step of the run raises the flag, and none after it lowers it. -/
def RaisedSince (step : σ → ι → σ) (raises lowers : σ → ι → Prop) (s : σ) (l : List ι) : Prop :=
  ∃ pre i post, l = pre ++ i :: post ∧ raises (pre.foldl step s) i ∧
    ∀ pre' j post', post = pre' ++ j :: post' → ¬lowers ((pre ++ i :: pre').foldl step s) j

theorem not_raisedSince_nil (s : σ) : ¬RaisedSince step raises lowers s [] := by
  rintro ⟨pre, i, post, h, -⟩
  simp at h

theorem raisedSince_concat (s : σ) (l : List ι) (i : ι) :
    RaisedSince step raises lowers s (l ++ [i]) ↔ raises (l.foldl step s) i ∨
      RaisedSince step raises lowers s l ∧ ¬lowers (l.foldl step s) i := by
  constructor
  · rintro ⟨pre, j, post, heq, hr, hl⟩
    rcases eq_nil_or_concat post with rfl | ⟨post, k, rfl⟩
    · obtain ⟨rfl, hi⟩ := append_inj' heq rfl
      obtain rfl := singleton_inj.1 hi
      exact .inl hr
    rw [concat_eq_append, ← cons_append, ← append_assoc] at heq
    obtain ⟨rfl, hi⟩ := append_inj' heq rfl
    obtain rfl := singleton_inj.1 hi
    refine .inr ⟨⟨pre, j, post, rfl, hr, fun pre' j' post' hp => ?_⟩, ?_⟩
    · exact hl pre' j' (post' ++ [i]) (by simp [hp])
    · exact hl post i [] (by simp)
  rintro (hr | ⟨⟨pre, j, post, rfl, hr, hl⟩, hi⟩)
  · exact ⟨l, i, [], rfl, hr, fun pre' j post' hp => by simp at hp⟩
  refine ⟨pre, j, post ++ [i], by simp, hr, fun pre' k post' hp => ?_⟩
  rcases eq_nil_or_concat post' with rfl | ⟨post', k', rfl⟩
  · obtain ⟨rfl, hk⟩ := append_inj' hp rfl
    obtain rfl := singleton_inj.1 hk
    exact hi
  · rw [concat_eq_append, ← cons_append, ← append_assoc] at hp
    exact hl pre' k post' (append_inj' hp rfl).1

/-- The flag `F` is down at the start, and each step that keeps the invariant `I` moves it as
`raises` and `lowers` say. -/
theorem flag_iff_raisedSince {I F : σ → Prop} (hI : ∀ s i, I s → I (step s i))
    (hF : ∀ s i, I s → (F (step s i) ↔ raises s i ∨ F s ∧ ¬lowers s i))
    (hs : I s) (h0 : ¬F s) (l : List ι) :
    F (l.foldl step s) ↔ RaisedSince step raises lowers s l := by
  have hrun : ∀ l : List ι, I (l.foldl step s) := by
    intro l
    induction l using reverseRecOn with
    | nil => exact hs
    | append_singleton l i ih =>
      rw [foldl_append]
      exact hI _ i ih
  induction l using reverseRecOn with
  | nil => exact iff_of_false h0 (not_raisedSince_nil s)
  | append_singleton l i ih =>
    rw [foldl_append, foldl_cons, foldl_nil, raisedSince_concat]
    exact (hF _ i (hrun l)).trans (or_congr_right (and_congr_left' ih))

/-- What a step of the run lowers was raised after it, if it is up at the end. -/
theorem RaisedSince.after {pre : List ι} (h : RaisedSince step raises lowers s (pre ++ i :: post))
    (hl : lowers (pre.foldl step s) i) (hr : ¬raises (pre.foldl step s) i) :
    RaisedSince step raises lowers ((pre ++ [i]).foldl step s) post := by
  induction post using reverseRecOn with
  | nil =>
    rw [raisedSince_concat] at h
    rcases h with h | ⟨-, h⟩
    · exact absurd h hr
    · exact absurd hl h
  | append_singleton post j ih =>
    rw [← cons_append, ← append_assoc, raisedSince_concat] at h
    have hrun : (pre ++ i :: post).foldl step s = post.foldl step ((pre ++ [i]).foldl step s) := by
      simp [foldl_append]
    rw [hrun] at h
    rw [raisedSince_concat]
    exact h.imp_right fun h => ⟨ih h.1, h.2⟩

end Ristux.Lib
