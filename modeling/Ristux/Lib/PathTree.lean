import Mathlib.Data.List.Basic

-- A table `t` gives some of its indices an entry: the path of a thing, as the list of its
-- components, and whether it is a directory.

namespace Ristux.Lib
open List Function Option Prod

abbrev PathTable (ι α : Type) := ι → Option (List α × Bool)

namespace PathTable
variable {ι α : Type} {t : PathTable ι α}

structure IsTree (t : PathTable ι α) : Prop where
  distinct : ∀ i j p d e, t i = some (p, d) → t j = some (p, e) → i = j
  rooted : ∀ i p d, t i = some (p, d) → p ≠ [] → ∃ j, t j = some (p.dropLast, true)

variable {p : List α}

theorem IsTree.isDir_eq (ht : t.IsTree) (hi : t i = some (p, d))
    (hj : t j = some (p, e)) : d = e := by
  obtain rfl := ht.distinct i j p d e hi hj
  rw [hi] at hj
  exact congrArg snd (some.inj hj)

theorem ne_of_dropLast {p q : List α} (hp : p ≠ []) (h : p.dropLast = q) : p ≠ q := by
  rintro rfl
  have hlen := congrArg length h
  have := length_pos_iff.2 hp
  simp only [length_dropLast] at hlen
  omega

variable {i : ι}

section
variable [DecidableEq ι]

theorem IsTree.add (ht : t.IsTree) (hi : t i = none)
    (hnew : ∀ k e, t k ≠ some (p, e)) (hj : t j = some (p.dropLast, true)) :
    IsTree (update t i (some (p, d))) := by
  have hother : ∀ {k e}, t k = some e → update t i (some (p, d)) k = some e := by
    intro k e hk
    have hki : k ≠ i := fun h => by simp [h, hi] at hk
    rw [update_of_ne hki, hk]
  constructor
  · intro k l q e f hk hl
    by_cases hki : k = i
    · by_cases hli : l = i
      · rw [hki, hli]
      rw [hki, update_self] at hk
      rw [update_of_ne hli] at hl
      obtain ⟨rfl, -⟩ := mk.inj (some.inj hk)
      exact absurd hl (hnew l f)
    rw [update_of_ne hki] at hk
    by_cases hli : l = i
    · rw [hli, update_self] at hl
      obtain ⟨rfl, -⟩ := mk.inj (some.inj hl)
      exact absurd hk (hnew k e)
    · rw [update_of_ne hli] at hl
      exact ht.distinct k l q e f hk hl
  intro k q e hk hq
  by_cases hki : k = i
  · rw [hki, update_self] at hk
    obtain ⟨rfl, -⟩ := mk.inj (some.inj hk)
    exact ⟨j, hother hj⟩
  rw [update_of_ne hki] at hk
  obtain ⟨l, hl⟩ := ht.rooted k q e hk hq
  exact ⟨l, hother hl⟩

/-- An entry may go exactly when nothing lies directly below it. -/
theorem IsTree.remove_iff (ht : t.IsTree) (hi : t i = some (p, d)) :
    IsTree (update t i none) ↔ ∀ k q e, t k = some (q, e) → q ≠ [] → q.dropLast ≠ p := by
  have hback : ∀ {k e}, update t i none k = some e → k ≠ i ∧ t k = some e := by
    intro k e hk
    by_cases hki : k = i
    · simp [hki] at hk
    · rw [update_of_ne hki] at hk
      exact ⟨hki, hk⟩
  constructor
  · intro h k q e hk hq hqp
    have hki : k ≠ i := by
      rintro rfl
      rw [hi] at hk
      obtain ⟨rfl, -⟩ := mk.inj (some.inj hk)
      exact ne_of_dropLast hq hqp rfl
    obtain ⟨j, hj⟩ := h.rooted k q e (by rw [update_of_ne hki, hk]) hq
    obtain ⟨hji, hj⟩ := hback hj
    rw [hqp] at hj
    exact hji (ht.distinct j i p _ _ hj hi)
  intro hleaf
  constructor
  · intro k l q e f hk hl
    exact ht.distinct k l q e f (hback hk).2 (hback hl).2
  intro k q e hk hq
  obtain ⟨j, hj⟩ := ht.rooted k q e (hback hk).2 hq
  refine ⟨j, ?_⟩
  have hji : j ≠ i := by
    rintro rfl
    rw [hi] at hj
    exact hleaf k q e (hback hk).2 hq (mk.inj (some.inj hj)).1.symm
  rw [update_of_ne hji, hj]

/-- An entry that is no directory has nothing below it. -/
theorem IsTree.remove_leaf (ht : t.IsTree) (hi : t i = some (p, false)) :
    IsTree (update t i none) := by
  apply (ht.remove_iff hi).2
  rintro k q e hk hq rfl
  obtain ⟨j, hj⟩ := ht.rooted k q e hk hq
  exact Bool.noConfusion (ht.isDir_eq hj hi)

end

section
variable [DecidableEq α]

/-- The path `p` after everything at or below `old` went to `new`. -/
def movePath (old new p : List α) : List α := if old <+: p then new ++ p.drop old.length else p

/-- The entry at `replaced`, if there is one, makes room. -/
def move [DecidableEq ι] (t : PathTable ι α) (old new : List α) (replaced : Option ι) :
    PathTable ι α := fun i =>
  if replaced = some i then none else (t i).map fun e => (movePath old new e.1, e.2)

/-- What a move from `old` to `new` needs to leave a tree: it does not move a directory below
itself, no moved entry meets one that stays, and entries that stay below `new` find a directory
there. -/
structure Movable (t : PathTable ι α) (old new : List α) (replaced : Option ι) : Prop where
  outside : ¬ old <+: new
  apart : ∀ k l p q d e, t k = some (old ++ p, d) → t l = some (q, e) → ¬ old <+: q →
    replaced ≠ some l → q ≠ new ++ p
  directory : ∀ i k q d e, t i = some (old, d) → t k = some (q, e) → ¬ old <+: q → q ≠ [] →
    q.dropLast = new → d = true

theorem movePath_append (old new p : List α) : movePath old new (old ++ p) = new ++ p := by
  rw [movePath, if_pos (prefix_append old p), drop_left]

theorem movePath_of_not (h : ¬ old <+: p) : movePath old new p = p :=
  if_neg h

theorem movePath_self (old p : List α) : movePath old old p = p := by
  by_cases h : old <+: p
  · obtain ⟨q, rfl⟩ := h
    exact movePath_append old old q
  · exact movePath_of_not h

variable [DecidableEq ι] {old new : List α} {replaced : Option ι}

theorem move_eq_some {e : List α × Bool} : t.move old new replaced i = some e ↔ replaced ≠ some i ∧
    ∃ p, t i = some (p, e.2) ∧ movePath old new p = e.1 := by
  unfold move
  split_ifs with h
  · simp [h]
  simp only [map_eq_some_iff, ne_eq, h, not_false_eq_true, true_and]
  constructor
  · rintro ⟨⟨p, d⟩, ht, rfl⟩
    exact ⟨p, ht, rfl⟩
  · rintro ⟨p, ht, hp⟩
    exact ⟨(p, e.2), ht, Prod.ext hp rfl⟩

theorem move_below (h : t i = some (old ++ p, d)) (hr : replaced ≠ some i) :
    t.move old new replaced i = some (new ++ p, d) :=
  move_eq_some.2 ⟨hr, _, h, movePath_append old new p⟩

theorem move_outside (h : t i = some (p, d)) (hp : ¬ old <+: p)
    (hr : replaced ≠ some i) : t.move old new replaced i = some (p, d) :=
  move_eq_some.2 ⟨hr, _, h, movePath_of_not hp⟩

/-- An entry after the move was at or below `old` before, or is as it was. -/
theorem move_cases (h : t.move old new replaced i = some (q, d)) :
    replaced ≠ some i ∧ ((∃ p, t i = some (old ++ p, d) ∧ q = new ++ p) ∨
      (t i = some (q, d) ∧ ¬ old <+: q)) := by
  obtain ⟨hr, p, hp, hq⟩ := move_eq_some.1 h
  refine ⟨hr, ?_⟩
  by_cases hop : old <+: p
  · obtain ⟨r, rfl⟩ := hop
    rw [movePath_append] at hq
    exact .inl ⟨r, hp, hq.symm⟩
  rw [movePath_of_not hop] at hq
  subst hq
  exact .inr ⟨hp, hop⟩

variable {o : ι} {d : Bool}

theorem IsTree.move_of_movable (ht : t.IsTree) (ho : t o = some (old, d)) (hnew : new ≠ [])
    (hdir : ∃ j, t j = some (new.dropLast, true))
    (hr : ∀ k, replaced = some k → ∃ e, t k = some (new, e)) (hm : t.Movable old new replaced) :
    IsTree (t.move old new replaced) := by
  have hkeep : ∀ {k p e}, t k = some (p, e) → p ≠ new → replaced ≠ some k := by
    intro k p e hk hp hrk
    obtain ⟨f, hf⟩ := hr k hrk
    rw [hf] at hk
    exact hp (mk.inj (some.inj hk)).1.symm
  have hne : ∀ p, old ++ p ≠ new := fun p h => hm.outside ⟨p, h⟩
  constructor
  · intro k l q e f hk hl
    obtain ⟨hkr, ⟨p, hkt, rfl⟩ | ⟨hkt, hko⟩⟩ := move_cases hk
    · obtain ⟨hlr, ⟨p', hlt, hpp⟩ | ⟨hlt, hlo⟩⟩ := move_cases hl
      · obtain rfl := append_cancel_left hpp
        exact ht.distinct k l _ e f hkt hlt
      · exact absurd rfl (hm.apart k l p _ e f hkt hlt hlo hlr)
    · obtain ⟨hlr, ⟨p', hlt, rfl⟩ | ⟨hlt, hlo⟩⟩ := move_cases hl
      · exact absurd rfl (hm.apart l k p' _ f e hlt hkt hko hkr)
      · exact ht.distinct k l q e f hkt hlt
  intro k q e hk hq
  obtain ⟨-, ⟨p, hkt, rfl⟩ | ⟨hkt, hko⟩⟩ := move_cases hk
  · by_cases hp : p = []
    · -- The moved entry itself: the directory above `new` stays where it is.
      obtain ⟨j, hj⟩ := hdir
      refine ⟨j, ?_⟩
      rw [hp, append_nil]
      apply move_outside hj
      · exact fun h => hm.outside (h.trans ( dropLast_prefix new))
      · exact hkeep hj (ne_of_dropLast hnew rfl).symm
    · obtain ⟨j, hj⟩ := ht.rooted k _ e hkt (by simp [hp])
      rw [dropLast_append_of_ne_nil hp] at hj ⊢
      exact ⟨j, move_below hj (hkeep hj (hne _))⟩
  obtain ⟨j, hj⟩ := ht.rooted k q e hkt hq
  by_cases hqn : q.dropLast = new
  · have hd : d = true := hm.directory o k q d e ho hkt hko hq hqn
    have ho' : t o = some (old ++ [], d) := by rw [append_nil, ho]
    have hmoved : t.move old new replaced o = some (new ++ [], d) :=
      move_below ho' (hkeep ho' (hne []))
    rw [append_nil, hd] at hmoved
    exact ⟨o, by rw [hqn, hmoved]⟩
  · refine ⟨j, move_outside hj ?_ (hkeep hj hqn)⟩
    exact fun h => hko (h.trans ( dropLast_prefix q))

theorem IsTree.movable (ht : t.IsTree) (ho : t o = some (old, d))
    (hne : old ≠ new) (hr : ∀ k, replaced = some k ↔ (∃ e, t k = some (new, e)))
    (hmoved : IsTree (t.move old new replaced)) : t.Movable old new replaced := by
  have hor : replaced ≠ some o := by
    intro h
    obtain ⟨e, he⟩ := (hr o).1 h
    rw [ho] at he
    exact hne (mk.inj (some.inj he)).1
  have ho' : t o = some (old ++ [], d) := by rw [append_nil, ho]
  have hout : ¬ old <+: new := by
    rintro ⟨p, rfl⟩
    have hp : p ≠ [] := fun h => hne (by rw [h, append_nil])
    have hoe : t.move old (old ++ p) replaced o = some (old ++ p ++ [], d) := move_below ho' hor
    rw [append_nil] at hoe
    obtain ⟨j, hj⟩ := hmoved.rooted o _ d hoe (by simp [hp])
    rw [dropLast_append_of_ne_nil hp] at hj
    obtain ⟨-, ⟨q, -, hq⟩ | ⟨-, hq⟩⟩ := move_cases hj
    · have hlen := congrArg length hq
      have := length_pos_iff.2 hp
      simp only [length_append, length_dropLast] at hlen
      omega
    · exact hq (prefix_append _ _)
  refine ⟨hout, ?_, ?_⟩
  · rintro k l p q e f hk hl hlo hlr rfl
    have hkr : replaced ≠ some k := by
      intro h
      obtain ⟨g, hg⟩ := (hr k).1 h
      rw [hk] at hg
      exact hout ⟨p, (mk.inj (some.inj hg)).1⟩
    obtain rfl := hmoved.distinct k l _ e f (move_below hk hkr) (move_outside hl hlo hlr)
    rw [hk] at hl
    exact hlo ⟨p, (mk.inj (some.inj hl)).1⟩
  intro i k q c e hi hk hko hq hqn
  have hkr : replaced ≠ some k := by
    intro h
    obtain ⟨g, hg⟩ := (hr k).1 h
    rw [hk] at hg
    exact ne_of_dropLast hq hqn (mk.inj (some.inj hg)).1
  obtain ⟨j, hj⟩ := hmoved.rooted k q e (move_outside hk hko hkr) hq
  rw [hqn] at hj
  obtain ⟨hjr, ⟨p, hjt, hp⟩ | ⟨hjt, -⟩⟩ := move_cases hj
  · obtain rfl : p = [] := append_cancel_left (by rw [append_nil, ← hp])
    rw [append_nil] at hjt
    exact (ht.isDir_eq hi hjt)
  · exact absurd ((hr j).2 ⟨true, hjt⟩) hjr

end
end PathTable
end Ristux.Lib
