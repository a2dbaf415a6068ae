import Mathlib.Data.List.Induction
import Ristux.Ext2.Basic

-- Path strings are split at slashes, cleaned lexically and joined again many times over; every
-- such round trip is stated here once, in terms of the list of components `partsOf` that a path
-- stands for.

namespace Ristux.Ext2
open Lib List Res

/-- `path.split('/')`. -/
def splitSlash : Str → List Str
  | [] => [[]]
  | c :: cs =>
    if c = '/' then [] :: splitSlash cs
    else
      match splitSlash cs with
      | [] => [[c]]
      | part :: parts => (c :: part) :: parts

def trimStartSlash (s : Str) : Str := s.dropWhile (· = '/')

def trimEndSlash (s : Str) : Str := (s.reverse.dropWhile (· = '/')).reverse

/-- `s.trim_matches('/')`. -/
def trimSlash (s : Str) : Str := trimEndSlash (trimStartSlash s)

/-- `s.rfind('/')`, counted in characters. -/
def rfindSlash (s : Str) : Option ℕ :=
  (s.reverse.findIdx? (· = '/')).map fun k => s.length - 1 - k

def joinSlash : List Str → Str
  | [] => []
  | [part] => part
  | part :: parts => part ++ '/' :: joinSlash parts

def componentsToPath (parts : List Str) : Str := '/' :: joinSlash parts

def pushPart (parts : List Str) (part : Str) : List Str :=
  if part = [] ∨ part = ['.'] then parts
  else if part = ['.', '.'] then parts.dropLast
  else parts ++ [part]

def normalizeExt2Path (path : Str) : R Str :=
  if path.head? ≠ some '/' then err .notFound
  else .ok (componentsToPath ((splitSlash path).foldl pushPart []))

def joinExt2Path (base leaf : Str) : Str :=
  if leaf = [] then base
  else if base = ['/'] then '/' :: trimStartSlash leaf
  else trimEndSlash base ++ '/' :: trimStartSlash leaf

def splitParentName (path : Str) : R (Str × Str) := do
  let normalized ← normalizeExt2Path path
  let trimmed := trimEndSlash normalized
  if trimmed.head? ≠ some '/' ∨ trimmed = ['/'] then err .notFound
  else do
    let slash ← okOr (rfindSlash trimmed) .notFound
    let parent := if slash = 0 then ['/'] else trimmed.take slash
    let name := trimmed.drop (slash + 1)
    if name = [] then err .notFound else .ok (parent, name)

/-- The components a path string stands for after lexical cleaning. -/
def partsOf (path : Str) : List Str := (splitSlash path).foldl pushPart []

/-- A component that survives cleaning. -/
def Plain (part : Str) : Prop := part ≠ [] ∧ part ≠ ['.'] ∧ part ≠ ['.', '.'] ∧ '/' ∉ part

theorem splitSlash_ne_nil (s : Str) : splitSlash s ≠ [] := by
  cases s with
  | nil => simp [splitSlash]
  | cons c cs =>
    rw [splitSlash]
    split
    · simp
    · split <;> simp

@[simp] theorem splitSlash_slash (s : Str) : splitSlash ('/' :: s) = [] :: splitSlash s := by
  simp [splitSlash]

theorem splitSlash_noSlash (h : '/' ∉ s) : splitSlash s = [s] := by
  induction s with
  | nil => rfl
  | cons c cs ih =>
    simp only [mem_cons, not_or] at h
    rw [splitSlash, if_neg (Ne.symm h.1), ih h.2]

theorem splitSlash_append_slash (a b : Str) :
    splitSlash (a ++ '/' :: b) = splitSlash a ++ splitSlash b := by
  induction a with
  | nil => simp [splitSlash]
  | cons c cs ih =>
    rw [cons_append, splitSlash, splitSlash, ih]
    split
    · rfl
    rcases h : splitSlash cs with _ | ⟨part, parts⟩
    · exact absurd h (splitSlash_ne_nil cs)
    · rfl

theorem noSlash_of_mem_splitSlash (h : part ∈ splitSlash s) : '/' ∉ part := by
  induction s generalizing part with
  | nil =>
    simp only [splitSlash, mem_singleton] at h
    simp [h]
  | cons c cs ih =>
    rw [splitSlash] at h
    split at h
    · rcases mem_cons.1 h with rfl | h
      · simp
      · exact ih h
    rename_i hc
    rcases hs : splitSlash cs with _ | ⟨p, ps⟩
    · exact absurd hs (splitSlash_ne_nil cs)
    rw [hs] at h ih
    rcases mem_cons.1 h with rfl | h
    · simp only [mem_cons, not_or]
      exact ⟨Ne.symm hc, ih mem_cons_self⟩
    · exact ih (mem_cons_of_mem _ h)

theorem pushPart_plain (h : Plain part) (parts : List Str) : pushPart parts part =
    parts ++ [part] := by
  obtain ⟨h1, h2, h3, -⟩ := h
  simp [pushPart, h1, h2, h3]

@[simp] theorem pushPart_nil (parts : List Str) : pushPart parts [] = parts := by simp [pushPart]

variable {parts : List Str}

variable {pieces walked rest : List Str}

theorem plain_of_mem_pushPart (hs : '/' ∉ part) (h : ∀ p ∈ parts, Plain p)
    (hp : p ∈ pushPart parts part) : Plain p := by
  unfold pushPart at hp
  split_ifs at hp with h1 h2
  · exact h p hp
  · exact h p (dropLast_subset _ hp)
  simp only [not_or] at h1
  rcases mem_append.1 hp with hp | hp
  · exact h p hp
  · rw [mem_singleton.1 hp]
    exact ⟨h1.1, h1.2, h2, hs⟩

theorem plain_foldl (hs : ∀ s ∈ pieces, '/' ∉ s) (h : ∀ p ∈ parts, Plain p) :
    ∀ p ∈ pieces.foldl pushPart parts, Plain p := by
  induction pieces generalizing parts with
  | nil => exact h
  | cons s pieces ih =>
    apply ih (forall_mem_cons.1 hs).2
    exact fun p hp => plain_of_mem_pushPart (hs s mem_cons_self) h hp

theorem plain_partsOf (h : p ∈ partsOf path) : Plain p :=
  plain_foldl (fun _ hs => noSlash_of_mem_splitSlash hs) (by simp) p h

theorem foldl_pushPart_plain (h : ∀ p ∈ pieces, Plain p) (parts : List Str) :
    pieces.foldl pushPart parts = parts ++ pieces := by
  induction pieces generalizing parts with
  | nil => simp
  | cons p pieces ih =>
    rw [foldl_cons, pushPart_plain (h p mem_cons_self), ih (forall_mem_cons.1 h).2]
    simp

theorem partsOf_append_slash (a b : Str) :
    partsOf (a ++ '/' :: b) = (splitSlash b).foldl pushPart (partsOf a) := by
  rw [partsOf, splitSlash_append_slash, foldl_append]
  rfl

theorem joinSlash_cons_cons (p q : Str) (parts : List Str) :
    joinSlash (p :: q :: parts) = p ++ '/' :: joinSlash (q :: parts) := rfl

theorem splitSlash_joinSlash (h : ∀ p ∈ parts, '/' ∉ p) (hne : parts ≠ []) :
    splitSlash (joinSlash parts) = parts := by
  induction parts with
  | nil => exact absurd rfl hne
  | cons p parts ih =>
    cases parts with
    | nil => exact splitSlash_noSlash (h p mem_cons_self)
    | cons q parts =>
      rw [joinSlash_cons_cons, splitSlash_append_slash, splitSlash_noSlash (h p mem_cons_self),
        ih (forall_mem_cons.1 h).2 (by simp)]
      rfl

section
variable (h : ∀ p ∈ parts, Plain p)
include h

theorem foldl_splitSlash_joinSlash (front : List Str) :
    (splitSlash (joinSlash parts)).foldl pushPart front = front ++ parts := by
  cases parts with
  | nil => simp [joinSlash, splitSlash]
  | cons p parts =>
    rw [splitSlash_joinSlash (fun q hq => (h q hq).2.2.2) (by simp), foldl_pushPart_plain h]

theorem partsOf_componentsToPath : partsOf (componentsToPath parts) = parts := by
  rw [partsOf, componentsToPath, splitSlash_slash, foldl_cons, pushPart_nil,
    foldl_splitSlash_joinSlash h]
  simp

omit h in
theorem normalizeExt2Path_of_head (h : path.head? = some '/') :
    normalizeExt2Path path = .ok (componentsToPath (partsOf path)) := by
  rw [normalizeExt2Path, if_neg (by simp [h])]
  rfl

omit h in
theorem trimStartSlash_of_head (h : s.head? ≠ some '/') : trimStartSlash s = s := by
  cases s with
  | nil => rfl
  | cons c cs =>
    have hc : c ≠ '/' := fun hc => h (by simp [hc])
    simp [trimStartSlash, hc]

omit h in
@[simp] theorem trimEndSlash_append_slash (s : Str) : trimEndSlash (s ++ ['/']) = trimEndSlash s := by
  simp [trimEndSlash]

omit h in
theorem trimEndSlash_of_last (h : c ≠ '/') : trimEndSlash (s ++ [c]) = s ++ [c] := by
  simp [trimEndSlash, h]

omit h in
theorem partsOf_trimEndSlash (s : Str) : partsOf (trimEndSlash s) = partsOf s := by
  induction s using reverseRecOn with
  | nil => rfl
  | append_singleton s c ih =>
    by_cases hc : c = '/'
    · rw [hc, trimEndSlash_append_slash, ih, partsOf_append_slash]
      simp [splitSlash]
    · rw [trimEndSlash_of_last hc]

omit h in
theorem joinSlash_append_singleton (h : parts ≠ []) (part : Str) :
    joinSlash (parts ++ [part]) = joinSlash parts ++ '/' :: part := by
  induction parts with
  | nil => exact absurd rfl h
  | cons p parts ih =>
    cases parts with
    | nil => rfl
    | cons q parts =>
      rw [cons_append, cons_append, joinSlash_cons_cons, ← cons_append, ih (by simp),
        joinSlash_cons_cons, append_assoc, cons_append]

theorem joinSlash_head : (joinSlash parts).head? ≠ some '/' := by
  cases parts with
  | nil => simp [joinSlash]
  | cons p parts =>
    obtain ⟨hne, -, -, hs⟩ := h p mem_cons_self
    cases p with
    | nil => exact absurd rfl hne
    | cons c cs =>
      simp only [mem_cons, not_or] at hs
      have hc : c ≠ '/' := Ne.symm hs.1
      cases parts <;> simp [joinSlash, hc]

omit h in
/-- The last component, if there is one, is what the joined path ends in. -/
theorem componentsToPath_append (part : Str) : componentsToPath (parts ++ [part]) =
      (if parts = [] then [] else componentsToPath parts) ++ '/' :: part := by
  by_cases h : parts = []
  · simp [h, componentsToPath, joinSlash]
  · rw [componentsToPath, joinSlash_append_singleton h, if_neg h]
    rfl

omit h in
theorem trimEndSlash_append_plain (s : Str) (h : Plain part) :
    trimEndSlash (s ++ part) = s ++ part := by
  obtain ⟨hne, -, -, hs⟩ := h
  induction part using reverseRecOn with
  | nil => exact absurd rfl hne
  | append_singleton cs c _ =>
    rw [← append_assoc]
    apply trimEndSlash_of_last
    rintro rfl
    simp at hs

theorem trimEndSlash_componentsToPath (hne : parts ≠ []) :
    trimEndSlash (componentsToPath parts) = componentsToPath parts := by
  induction parts using reverseRecOn with
  | nil => exact absurd rfl hne
  | append_singleton parts p _ =>
    rw [componentsToPath_append, append_cons, trimEndSlash_append_plain _ (h p (by simp))]

omit h in
theorem rfindSlash_append (a : Str) (h : '/' ∉ part) : rfindSlash (a ++ '/' :: part) =
    some a.length := by
  have hf : (part.reverse ++ '/' :: a.reverse).findIdx? (· = '/') = some part.length := by
    rw [findIdx?_append, findIdx?_eq_none_iff.2 (by
      intro c hc
      have : c ≠ '/' := fun e => h (by simpa [e] using hc)
      simpa using this)]
    simp [findIdx?_cons]
  rw [rfindSlash]
  simp only [reverse_append, reverse_cons, append_assoc, singleton_append,
    hf, Option.map_some, length_append, length_cons]
  congr 1
  omega

theorem trimSlash_componentsToPath : trimSlash (componentsToPath parts) = joinSlash parts := by
  have hstart : trimStartSlash (componentsToPath parts) = joinSlash parts := by
    rw [← trimStartSlash_of_head (joinSlash_head h)]
    simp [componentsToPath, trimStartSlash]
  rw [trimSlash, hstart]
  induction parts using reverseRecOn with
  | nil => rfl
  | append_singleton parts p _ =>
    have hp := h p (by simp)
    by_cases hne : parts = []
    · simpa [hne, joinSlash] using trimEndSlash_append_plain [] hp
    · rw [joinSlash_append_singleton hne, append_cons, trimEndSlash_append_plain _ hp]

theorem filter_splitSlash_joinSlash : (splitSlash (joinSlash parts)).filter (· ≠ []) = parts := by
  by_cases hne : parts = []
  · simp [hne, joinSlash, splitSlash]
  · rw [splitSlash_joinSlash (fun p hp => (h p hp).2.2.2) hne]
    simpa using fun p hp => (h p hp).1

end

/-- A path with at least one component splits into its directory and its last component. -/
theorem splitParentName_of_parts (hhead : path.head? = some '/')
    (hparts : partsOf path = parts ++ [name]) : splitParentName path =
    .ok (componentsToPath parts, name) := by
  have hplain : ∀ p ∈ parts ++ [name], Plain p := fun p hp => plain_partsOf (hparts ▸ hp)
  have hname := hplain name (by simp)
  rw [splitParentName, normalizeExt2Path_of_head hhead, hparts, ok_bind,
    trimEndSlash_componentsToPath hplain (by simp)]
  rw [if_neg, componentsToPath_append, rfindSlash_append _ hname.2.2.2, okOr_some, ok_bind]
  · by_cases hp : parts = []
    · simp [hp, hname.1, componentsToPath, joinSlash]
    · have hlen : (componentsToPath parts).length ≠ 0 := by simp [componentsToPath]
      simp [hp, hname.1, hlen]
  rw [componentsToPath_append]
  by_cases hp : parts = []
  · simp [hp, hname.1]
  · simp [hp, componentsToPath]

theorem splitParentName_root (hhead : path.head? = some '/') (hparts : partsOf path = []) :
    splitParentName path = err .notFound := by
  rw [splitParentName, normalizeExt2Path_of_head hhead, hparts, ok_bind]
  rfl

/-- The path the driver continues with when the component after `walked` is a link to
`target` and `rest` is still to be resolved. -/
def redirect (walked : List Str) (target : Str) (rest : List Str) : Str :=
  let parent := componentsToPath walked
  let nextPath := if target.head? = some '/' then target else joinExt2Path parent target
  let remaining := componentsToPath rest
  if remaining ≠ ['/'] then joinExt2Path nextPath (trimStartSlash remaining) else nextPath

/-- The components of `redirect`. -/
def redirectParts (walked : List Str) (target : Str) (rest : List Str) : List Str :=
  (splitSlash target).foldl pushPart (if target.head? = some '/' then [] else walked) ++ rest

theorem joinExt2Path_head (h : base.head? = some '/') :
    (joinExt2Path base leaf).head? = some '/' := by
  unfold joinExt2Path
  split_ifs
  · exact h
  · rfl
  rcases ht : trimEndSlash base with _ | ⟨c, cs⟩
  · rfl
  have hb : trimEndSlash base <+: base := by
    have := dropWhile_suffix (l := base.reverse) (· = '/')
    simpa [trimEndSlash] using reverse_prefix.2 this
  obtain ⟨t, ht'⟩ := hb
  rw [ht] at ht'
  rw [← ht'] at h
  simpa using h

theorem partsOf_joinExt2Path (hleaf : leaf.head? ≠ some '/') :
    partsOf (joinExt2Path base leaf) = (splitSlash leaf).foldl pushPart (partsOf base) := by
  unfold joinExt2Path
  split_ifs with h1 h2
  · simp [h1, splitSlash]
  · rw [h2, trimStartSlash_of_head hleaf, partsOf, splitSlash_slash]
    simp [partsOf, splitSlash]
  · rw [trimStartSlash_of_head hleaf, partsOf_append_slash, partsOf_trimEndSlash]

theorem normalize_redirect (target : Str) (hw : ∀ p ∈ walked, Plain p) (hr : ∀ p ∈ rest, Plain p) :
    normalizeExt2Path (redirect walked target rest) =
      .ok (componentsToPath (redirectParts walked target rest)) := by
  obtain ⟨next, hnext⟩ : ∃ next, next = if target.head? = some '/' then target
      else joinExt2Path (componentsToPath walked) target := ⟨_, rfl⟩
  have hhead : next.head? = some '/' := by
    rw [hnext]
    split_ifs with h
    · exact h
    · exact joinExt2Path_head rfl
  have hparts : partsOf next = (splitSlash target).foldl pushPart
      (if target.head? = some '/' then [] else walked) := by
    rw [hnext]
    split_ifs with h
    · rfl
    · rw [partsOf_joinExt2Path h, partsOf_componentsToPath hw]
  unfold redirect redirectParts
  simp only [← hnext, ← hparts]
  by_cases hrest : rest = []
  · rw [if_neg (by simp [hrest, componentsToPath, joinSlash]), normalizeExt2Path_of_head hhead,
      hrest, append_nil]
  have hstart : trimStartSlash (componentsToPath rest) = joinSlash rest := by
    rw [← trimStartSlash_of_head (joinSlash_head hr)]
    simp [componentsToPath, trimStartSlash]
  have hslash : componentsToPath rest ≠ ['/'] := by
    intro h
    apply hrest
    have := partsOf_componentsToPath hr
    rw [h] at this
    exact this.symm
  rw [if_pos hslash, hstart, normalizeExt2Path_of_head (joinExt2Path_head hhead),
    partsOf_joinExt2Path (joinSlash_head hr), foldl_splitSlash_joinSlash hr]

theorem plain_redirectParts (hw : ∀ p ∈ walked, Plain p) (hr : ∀ p ∈ rest, Plain p) :
    ∀ p ∈ redirectParts walked target rest, Plain p := by
  intro p hp
  rcases mem_append.1 hp with hp | hp
  · refine plain_foldl (fun _ hs => noSlash_of_mem_splitSlash hs) (fun q hq => ?_) p hp
    split_ifs at hq
    · simp at hq
    · exact hw q hq
  · exact hr p hp

end Ristux.Ext2
