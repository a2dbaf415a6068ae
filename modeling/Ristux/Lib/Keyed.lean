import Mathlib.Data.List.Nodup
import Mathlib.Data.List.Perm.Subperm

-- A table is a list of entries, no two with the same key. An entry is looked up by its key,
-- replaced by another one with the same key, removed, or appended under a new key.

namespace Ristux.Lib
open List

@[ext] structure Keyed (α : Type) {κ : Type} (key : α → κ) where
  entries : List α
  distinct : (entries.map key).Nodup

namespace Keyed
variable {α κ : Type} {key : α → κ} [DecidableEq κ]

def get (t : Keyed α key) (k : κ) : Option α :=
  t.entries.find? fun a => key a = k

theorem map_key_replace (l : List α) (a : α) :
    (l.map fun b => if key b = key a then a else b).map key = l.map key := by
  rw [map_map]
  refine map_congr_left fun b _ => ?_
  by_cases h : key b = key a <;> simp [h]

/-- Replace the entry with the key of `a`, if there is one. -/
def put (t : Keyed α key) (a : α) : Keyed α key where
  entries := t.entries.map fun b => if key b = key a then a else b
  distinct := by rw [map_key_replace]; exact t.distinct

def remove (t : Keyed α key) (k : κ) : Keyed α key where
  entries := t.entries.eraseP fun a => key a = k
  distinct := (eraseP_sublist.map key).nodup t.distinct

/-- Change every entry under its key. -/
def map (t : Keyed α key) (f : α → α) (hf : ∀ a, key (f a) = key a) : Keyed α key where
  entries := t.entries.map f
  distinct := by
    rw [map_map, show key ∘ f = key from funext hf]
    exact t.distinct

/-- Append an entry, if its key is new. -/
def push (t : Keyed α key) (a : α) : Keyed α key :=
  if h : key a ∈ t.entries.map key then t
  else
    { entries := t.entries ++ [a]
      distinct := by
        rw [map_append, nodup_append]
        refine ⟨t.distinct, by simp, fun x hx y hy => ?_⟩
        rintro rfl
        simp only [map_cons, map_nil, mem_singleton] at hy
        exact h (hy ▸ hx) }

variable {t : Keyed α key} {a b : α} {k k' : κ}

theorem get_eq_some : t.get k = some a ↔ a ∈ t.entries ∧ key a = k := by
  constructor
  · intro h
    exact ⟨mem_of_find?_eq_some h, by simpa using find?_some h⟩
  rintro ⟨ha, rfl⟩
  cases h : t.get (key a) with
  | none => simp [get, find?_eq_none] at h; exact absurd rfl (h a ha)
  | some b =>
    have hb : key b = key a := by simpa using find?_some h
    rw [inj_on_of_nodup_map t.distinct (mem_of_find?_eq_some h) ha hb]

theorem get_eq_none : t.get k = none ↔ k ∉ t.entries.map key := by
  simp [get, find?_eq_none]

theorem key_of_get (h : t.get k = some a) : key a = k := (get_eq_some.1 h).2

theorem mem_of_get (h : t.get k = some a) : a ∈ t.entries := (get_eq_some.1 h).1

theorem get_of_mem (h : a ∈ t.entries) : t.get (key a) = some a := get_eq_some.2 ⟨h, rfl⟩

theorem mem_keys_iff : k ∈ t.entries.map key ↔ ∃ a, t.get k = some a := by
  rw [← Option.isSome_iff_exists, ← not_iff_not, ← get_eq_none]
  simp

@[simp] theorem keys_put : (t.put a).entries.map key = t.entries.map key := map_key_replace _ _

theorem get_put_self (h : t.get (key a) = some b) : (t.put a).get (key a) = some a := by
  refine get_eq_some.2 ⟨?_, rfl⟩
  exact mem_map.2 ⟨b, mem_of_get h, if_pos (key_of_get h)⟩

theorem get_put_of_ne (h : k ≠ key a) : (t.put a).get k = t.get k := by
  cases hk : t.get k with
  | none => rw [get_eq_none, keys_put]; exact get_eq_none.1 hk
  | some b =>
    have hb : key b ≠ key a := by rw [key_of_get hk]; exact h
    exact get_eq_some.2 ⟨mem_map.2 ⟨b, mem_of_get hk, if_neg hb⟩, key_of_get hk⟩

theorem get_put : (t.put a).get k = if k = key a then (t.get k).map fun _ => a else t.get k := by
  split
  · next h =>
    subst h
    cases hk : t.get (key a) with
    | none => rw [Option.map_none, get_eq_none, keys_put]; exact get_eq_none.1 hk
    | some b => exact get_put_self hk
  · next h => exact get_put_of_ne h

/-- An entry put where it already stands changes nothing. -/
theorem put_self (h : t.get (key a) = some a) : t.put a = t := by
  apply Keyed.ext
  apply (map_congr_left ?_).trans (map_id _)
  intro b hb
  by_cases hkey : key b = key a
  · rw [if_pos hkey, inj_on_of_nodup_map t.distinct hb (mem_of_get h) hkey]
    rfl
  · rw [if_neg hkey]
    rfl

theorem put_put (h : key a = key b) : (t.put a).put b = t.put b := by
  apply Keyed.ext
  simp only [put, map_map]
  refine map_congr_left fun c _ => ?_
  by_cases hc : key c = key a
  · simp [hc, h]
  · simp [hc, h ▸ hc]

theorem get_remove_self : (t.remove k).get k = none := by
  cases h : (t.remove k).get k with
  | none => rfl
  | some a =>
    exfalso
    have hmem : a ∈ t.entries.eraseP fun b => key b = k := mem_of_get h
    have hkey : key a = k := key_of_get h
    obtain ⟨c, l₁, l₂, -, hc, heq, heq'⟩ :=
      exists_of_eraseP (p := fun b => decide (key b = k)) (mem_of_mem_eraseP hmem)
        (by simpa using hkey)
    have hd := t.distinct
    rw [heq, map_append, map_cons, nodup_middle, nodup_cons] at hd
    rw [heq', mem_append] at hmem
    refine hd.1 ?_
    rw [show key c = key a by rw [hkey]; simpa using hc]
    rcases hmem with hmem | hmem
    · exact mem_append_left _ (mem_map_of_mem hmem)
    · exact mem_append_right _ (mem_map_of_mem hmem)

theorem mem_remove_of_ne (h : key a ≠ k) : a ∈ (t.remove k).entries ↔ a ∈ t.entries :=
  mem_eraseP_of_neg (by simpa using h)

theorem get_remove_of_ne (h : k' ≠ k) : (t.remove k).get k' = t.get k' := by
  refine Option.ext fun a => ?_
  rw [get_eq_some, get_eq_some]
  refine and_congr_left fun hk => mem_remove_of_ne ?_
  rw [hk]
  exact h

theorem get_remove : (t.remove k).get k' = if k' = k then none else t.get k' := by
  split
  · next h => rw [h, get_remove_self]
  · next h => exact get_remove_of_ne h

theorem entries_push (h : key a ∉ t.entries.map key) : (t.push a).entries = t.entries ++ [a] := by
  simp only [push, h, dite_false]

theorem get_push (h : key a ∉ t.entries.map key) :
    (t.push a).get k = if k = key a then some a else t.get k := by
  split
  · next hk =>
    subst hk
    refine get_eq_some.2 ⟨?_, rfl⟩
    rw [entries_push h]
    exact mem_append_right _ (mem_singleton_self a)
  next hk =>
  refine Option.ext fun b => ?_
  rw [get_eq_some, get_eq_some]
  refine and_congr_left fun hb => ?_
  rw [entries_push h, mem_append, mem_singleton]
  refine ⟨fun hmem => hmem.resolve_right ?_, .inl⟩
  rintro rfl
  exact hk hb.symm

omit [DecidableEq κ] in
theorem nodup_filter_keys (t : Keyed α key) (p : α → Bool) : ((t.entries.filter p).map key).Nodup :=
  (filter_sublist.map key).nodup t.distinct

variable {p : α → Bool}

/-- A table has at most as many entries with a property as another one that has such an entry
under every key that has one in the first. -/
theorem filter_keys_subset {t' : Keyed α key}
    (h : ∀ k a, t'.get k = some a → p a → ∃ b, t.get k = some b ∧ p b) :
    (t'.entries.filter p).map key ⊆ (t.entries.filter p).map key := by
  intro k hk
  obtain ⟨a, ha, rfl⟩ := mem_map.1 hk
  obtain ⟨ha, hpa⟩ := mem_filter.1 ha
  obtain ⟨b, hb, hpb⟩ := h _ _ (get_of_mem ha) hpa
  exact mem_map.2 ⟨b, mem_filter.2 ⟨mem_of_get hb, hpb⟩, key_of_get hb⟩

theorem countP_le {t' : Keyed α key}
    (h : ∀ k a, t'.get k = some a → p a → ∃ b, t.get k = some b ∧ p b) :
    t'.entries.countP p ≤ t.entries.countP p := by
  have hle := (subperm_of_subset (t'.nodup_filter_keys p) (filter_keys_subset h)).length_le
  simpa [countP_eq_length_filter] using hle

theorem countP_lt {t' : Keyed α key}
    (h : ∀ k a, t'.get k = some a → p a → ∃ b, t.get k = some b ∧ p b)
    (hk : t.get k = some b) (hb : p b) (hk' : ∀ a, t'.get k = some a → ¬p a) :
    t'.entries.countP p < t.entries.countP p := by
  have hsub : k :: (t'.entries.filter p).map key ⊆ (t.entries.filter p).map key := by
    intro j hj
    rcases mem_cons.1 hj with rfl | hj
    · exact mem_map.2 ⟨b, mem_filter.2 ⟨mem_of_get hk, hb⟩, key_of_get hk⟩
    · exact filter_keys_subset h hj
  have hnd : (k :: (t'.entries.filter p).map key).Nodup := by
    refine nodup_cons.2 ⟨fun hmem => ?_, t'.nodup_filter_keys p⟩
    obtain ⟨a, ha, rfl⟩ := mem_map.1 hmem
    obtain ⟨ha, hpa⟩ := mem_filter.1 ha
    exact hk' a (get_of_mem ha) hpa
  have hle := (subperm_of_subset hnd hsub).length_le
  rw [countP_eq_length_filter, countP_eq_length_filter]
  simpa [Nat.succ_le_iff] using hle

end Keyed
end Ristux.Lib
