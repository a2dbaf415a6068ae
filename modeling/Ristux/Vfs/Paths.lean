import Ristux.Vfs.Calls

-- A path that `normalize_path` returns is the list of its plain components, written out. Every
-- path function of the virtual file system is stated here in terms of that list.

namespace Ristux.Vfs
open Lib Ext2 List

/-- The path is its own normal form. -/
def Normal (path : Str) : Prop := normalizePath path = .ok path

theorem flatMap_slash (h : parts ≠ []) : (parts.flatMap fun part => '/' :: part) =
    componentsToPath parts := by
  induction parts with
  | nil => exact absurd rfl h
  | cons part parts ih =>
    cases parts with
    | nil => simp [componentsToPath, joinSlash]
    | cons next parts =>
      rw [flatMap_cons, ih (by simp)]
      rfl

theorem normalizePath_of_head (h : path.head? = some '/') : normalizePath path =
    .ok (componentsToPath (partsOf path)) := by
  rw [normalizePath, if_neg (by simp [h])]
  dsimp only
  rw [← partsOf]
  split_ifs with hp
  · rw [hp]
    rfl
  · rw [flatMap_slash hp]

theorem normalizePath_eq_ok :
    normalizePath path = .ok q ↔ path.head? = some '/' ∧ q = componentsToPath (partsOf path) := by
  by_cases h : path.head? = some '/'
  · rw [normalizePath_of_head h]
    simp [h, eq_comm]
  · rw [normalizePath, if_pos h]
    simp [h]

theorem normal_componentsToPath (h : ∀ p ∈ parts, Plain p) : Normal (componentsToPath parts) :=
  normalizePath_eq_ok.2 ⟨rfl, by rw [partsOf_componentsToPath h]⟩

theorem normal_of_normalizePath (h : normalizePath path = .ok q) : Normal q := by
  obtain ⟨-, rfl⟩ := normalizePath_eq_ok.1 h
  exact normal_componentsToPath fun _ hp => plain_partsOf hp

section
variable (h : Normal path)
include h

theorem Normal.eq : path = componentsToPath (partsOf path) :=
  (normalizePath_eq_ok.1 h).2

theorem Normal.head : path.head? = some '/' :=
  (normalizePath_eq_ok.1 h).1

theorem Normal.ne_nil : path ≠ [] := by
  rintro rfl
  exact absurd h.head (by simp)

theorem Normal.ext (hq : Normal q) (hp : partsOf path = partsOf q) : path = q := by
  rw [h.eq, hq.eq, hp]

theorem Normal.partsOf_eq_nil : partsOf path = [] ↔ path = ['/'] := by
  constructor
  · intro hp
    rw [h.eq, hp]
    rfl
  · rintro rfl
    rfl

omit h in
theorem parentPath_componentsToPath (h : ∀ p ∈ parts, Plain p) :
    parentPath (componentsToPath parts) = .ok (componentsToPath parts.dropLast) := by
  have hnormal : normalizePath (componentsToPath parts) = .ok (componentsToPath parts) :=
    normal_componentsToPath h
  rw [parentPath, hnormal, Res.ok_bind]
  rcases eq_nil_or_concat parts with rfl | ⟨front, name, rfl⟩
  · rfl
  rw [concat_eq_append] at h ⊢
  rw [trimEndSlash_componentsToPath h (by simp), componentsToPath_append]
  dsimp only
  rw [rfindSlash_append _ (h name (by simp)).2.2.2, dropLast_concat]
  by_cases hf : front = []
  · simp [hf, componentsToPath, joinSlash]
  · have hlen : (componentsToPath front).length = (joinSlash front).length + 1 := rfl
    simp [hf, hlen]

theorem Normal.parentPath : parentPath path = .ok (componentsToPath (partsOf path).dropLast) := by
  conv_lhs => rw [h.eq]
  exact parentPath_componentsToPath fun _ hp => plain_partsOf hp

/-- The parent directory as `ensure_parent_directory` cuts it off. -/
theorem Normal.cut (hroot : path ≠ ['/']) :
    ∃ slash, rfindSlash path = some slash ∧ (if slash = 0 then ['/'] else path.take slash) =
        componentsToPath (partsOf path).dropLast := by
  rcases eq_nil_or_concat (partsOf path) with hp | ⟨front, name, hp⟩
  · exact absurd (h.partsOf_eq_nil.1 hp) hroot
  rw [concat_eq_append] at hp
  have hname : Plain name := plain_partsOf (by rw [hp]; simp)
  have heq : path = (if front = [] then [] else componentsToPath front) ++ '/' :: name := by
    rw [← componentsToPath_append, ← hp]
    exact h.eq
  refine ⟨_, by rw [heq, rfindSlash_append _ hname.2.2.2], ?_⟩
  rw [hp, dropLast_concat]
  by_cases hf : front = []
  · simp [hf, componentsToPath, joinSlash]
  have hlen : (componentsToPath front).length ≠ 0 := by simp [componentsToPath]
  rw [heq]
  simp [hf, hlen]

end

theorem joinSlash_append (ha : a ≠ []) (hb : b ≠ []) : joinSlash (a ++ b) =
    joinSlash a ++ '/' :: joinSlash b := by
  induction a with
  | nil => exact absurd rfl ha
  | cons p a ih =>
    cases a with
    | nil =>
      cases b with
      | nil => exact absurd rfl hb
      | cons q b => rfl
    | cons q a =>
      rw [cons_append, cons_append, joinSlash_cons_cons, ← cons_append,
        ih (by simp), joinSlash_cons_cons, append_assoc, cons_append]

theorem childPathPrefix_componentsToPath (h : ∀ p ∈ parts, Plain p) (hne : parts ≠ []) :
    childPathPrefix (componentsToPath parts) = componentsToPath parts ++ ['/'] := by
  rw [childPathPrefix, trimEndSlash_componentsToPath h hne]

theorem componentsToPath_below (ha : a ≠ []) (hb : b ≠ []) : componentsToPath (a ++ b) =
    componentsToPath a ++ ['/'] ++ joinSlash b := by
  rw [componentsToPath, joinSlash_append ha hb, componentsToPath]
  simp

theorem splitSlash_componentsToPath (h : ∀ p ∈ parts, Plain p)
    (hne : parts ≠ []) : splitSlash (componentsToPath parts) = [] :: parts := by
  rw [componentsToPath, splitSlash_slash, splitSlash_joinSlash (fun p hp => (h p hp).2.2.2) hne]

/-- A path starts with the prefix of a directory when its components do, and go on. -/
theorem prefix_iff (ha : ∀ p ∈ a, Plain p) (hb : ∀ p ∈ b, Plain p) (hne : a ≠ []) :
    (componentsToPath a ++ ['/']) <+: componentsToPath b ↔ ∃ c, c ≠ [] ∧ b = a ++ c := by
  constructor
  · rintro ⟨rest, hrest⟩
    have hbne : b ≠ [] := by
      rintro rfl
      have := congrArg length hrest
      simp [componentsToPath, joinSlash] at this
    refine ⟨splitSlash rest, splitSlash_ne_nil rest, ?_⟩
    have h := congrArg splitSlash hrest
    rw [append_assoc, singleton_append, splitSlash_append_slash,
      splitSlash_componentsToPath ha hne, splitSlash_componentsToPath hb hbne, cons_append] at h
    exact (cons.inj h).2.symm
  · rintro ⟨c, hc, rfl⟩
    rw [componentsToPath_below hne hc]
    exact prefix_append _ _

theorem atOrBelow_iff (hp : Normal path) (hroot : path ≠ ['/']) (hq : Normal q) :
    atOrBelow path q = true ↔ partsOf path <+: partsOf q := by
  have hne : partsOf path ≠ [] := fun h => hroot (hp.partsOf_eq_nil.1 h)
  have hpre := prefix_iff (fun _ h => plain_partsOf h) (fun _ h => plain_partsOf h) hne
    (b := partsOf q)
  rw [← hp.eq, ← hq.eq] at hpre
  rw [atOrBelow, Bool.or_eq_true, decide_eq_true_eq, isPrefixOf_iff_prefix, hpre]
  constructor
  · rintro (rfl | ⟨c, -, hc⟩)
    · exact prefix_rfl
    · exact ⟨c, hc.symm⟩
  rintro ⟨c, hc⟩
  by_cases hcn : c = []
  · rw [hcn, append_nil] at hc
    exact .inl (hq.ext hp hc.symm)
  · exact .inr ⟨c, hcn, hc.symm⟩

/-- Cutting a directory off a path below it and putting another one in front. -/
theorem append_drop_eq (hp : Normal path) (hroot : path ≠ ['/'])
    (hnew : Normal new) (hnroot : new ≠ ['/']) (hq : Normal q)
    (hc : partsOf q = partsOf path ++ c) :
    new ++ q.drop path.length = componentsToPath (partsOf new ++ c) := by
  by_cases hcn : c = []
  · rw [hcn, append_nil] at hc
    rw [hq.ext hp hc, drop_length, hcn, append_nil, append_nil]
    exact hnew.eq
  have hne : partsOf path ≠ [] := fun h => hroot (hp.partsOf_eq_nil.1 h)
  have hnne : partsOf new ≠ [] := fun h => hnroot (hnew.partsOf_eq_nil.1 h)
  rw [hq.eq, hc, componentsToPath_below hne hcn, componentsToPath_below hnne hcn, ← hp.eq,
    ← hnew.eq, append_assoc, drop_left, append_assoc]

theorem length_asBytes_cons (c : Char) (s : Str) :
    (asBytes (c :: s)).length = c.utf8Size + (asBytes s).length := by
  simp [asBytes]

theorem fromByte_append (a b : Str) : fromByte (asBytes a).length (a ++ b) = some b := by
  induction a with
  | nil =>
    show fromByte 0 b = some b
    cases b <;> rfl
  | cons c a ih =>
    have hc := c.utf8Size_pos
    rw [length_asBytes_cons]
    obtain ⟨n, hn⟩ : ∃ n, c.utf8Size + (asBytes a).length = n + 1 :=
      ⟨c.utf8Size + (asBytes a).length - 1, by omega⟩
    rw [hn, cons_append, fromByte, if_pos (by omega), ← hn, Nat.add_sub_cancel_left, ih]

theorem replacePathPrefix_append (a b new : Str) :
    replacePathPrefix (a ++ b) a new = .ok (new ++ b) := by
  rw [replacePathPrefix, fromByte_append]
  rfl

end Ristux.Vfs
