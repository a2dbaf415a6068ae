import Ristux.Linker.Elf

-- `glob_match` and `case_pattern_match` of `userland/src/bin/sh.rs` run one greedy loop that
-- remembers the last star it has passed.

namespace Ristux.Userland
open List Option
open Ristux.Linker (Bytes)

def starByte : UInt8 := 0x2a
def anyByte : UInt8 := 0x3f
def dotByte : UInt8 := 0x2e

/-- `while p < pattern.len() && pattern[p] == b'*' { p += 1; }` and `p == pattern.len()`. -/
def onlyStars (pattern : Bytes) : Bool := (pattern.dropWhile (· == starByte)).isEmpty

/-- The loop of both matchers, with `pattern[p..]`, `name[n..]` and, when a star has been passed,
`pattern[star + 1..]` with `name[retry..]`. -/
def wildcardLoop : Bytes → Bytes → Option (Bytes × Bytes) → Bool
  | pattern, [], _ => onlyStars pattern
  | x :: pattern, c :: name, star =>
    if x = anyByte ∨ x = c then wildcardLoop pattern name star
    else if x = starByte then wildcardLoop pattern (c :: name) (some (pattern, c :: name))
    else
      match star with
      | some (pattern, retry) => wildcardLoop pattern retry.tail (some (pattern, retry.tail))
      | none => false
  | [], _ :: _, some (pattern, retry) =>
    wildcardLoop pattern retry.tail (some (pattern, retry.tail))
  | [], _ :: _, none => false
termination_by pattern name star =>
  (star.elim (pattern.length + 1) fun s => max pattern.length s.1.length,
    star.elim 0 fun s => max s.2.length name.length, name.length)
decreasing_by
  · cases star with
    | none => exact Prod.Lex.left _ _ (by simp)
    | some s =>
      simp only [elim_some, length_cons, Prod.lex_def]
      omega
  · cases star with
    | none => exact Prod.Lex.left _ _ (by
        simp only [elim_none, elim_some, length_cons]
        omega)
    | some s =>
      simp only [elim_some, length_cons, Prod.lex_def]
      omega
  · simp only [elim_some, length_cons, length_tail, Prod.lex_def]
    omega
  · simp only [elim_some, length_cons, length_tail, length_nil, Prod.lex_def]
    omega

variable {star : Option (Bytes × Bytes)}

variable {pattern name : Bytes} {x c : UInt8}

theorem wildcardLoop_step (h : x = anyByte ∨ x = c) :
    wildcardLoop (x :: pattern) (c :: name) star = wildcardLoop pattern name star := by
  rw [wildcardLoop.eq_def]
  exact if_pos h

theorem wildcardLoop_star (h : ¬ (starByte = anyByte ∨ starByte = c)) :
    wildcardLoop (starByte :: pattern)
    (c :: name) star = wildcardLoop pattern (c :: name) (some (pattern, c :: name)) := by
  rw [wildcardLoop.eq_def]
  exact (if_neg h).trans (if_pos rfl)

def casePatternMatch (pattern word : Bytes) : Bool := wildcardLoop pattern word none

def globMatch (pattern name : Bytes) : Bool :=
  if name.head? = some dotByte ∧ pattern.head? ≠ some dotByte then false
  else wildcardLoop pattern name none

/-- The string can be split so that each star stands for a byte sequence, each question mark for
one byte and every other byte for itself. -/
inductive Denotes : Bytes → Bytes → Prop
  | nil : Denotes [] []
  | star (run : Bytes) {pattern word : Bytes} :
    Denotes pattern word → Denotes (starByte :: pattern) (run ++ word)
  | any (c : UInt8) {pattern word : Bytes} :
    Denotes pattern word → Denotes (anyByte :: pattern) (c :: word)
  | byte {c : UInt8} {pattern word : Bytes} :
    c ≠ starByte → c ≠ anyByte → Denotes pattern word → Denotes (c :: pattern) (c :: word)

/-- As `Denotes`, but a star that meets a `*` of the string stands for that byte alone. -/
inductive Reads : Bytes → Bytes → Prop
  | nil : Reads [] []
  | star (run : Bytes) {pattern word : Bytes} :
    (run ++ word).head? ≠ some starByte → Reads pattern word →
      Reads (starByte :: pattern) (run ++ word)
  | any (c : UInt8) {pattern word : Bytes} :
    Reads pattern word → Reads (anyByte :: pattern) (c :: word)
  | byte {c : UInt8} {pattern word : Bytes} :
    c ≠ anyByte → Reads pattern word → Reads (c :: pattern) (c :: word)

section
theorem Reads.denotes (h : Reads pattern word) : Denotes pattern word := by
  induction h with
  | nil => exact .nil
  | star run _ _ ih => exact .star run ih
  | any c _ ih => exact .any c ih
  | @byte c pattern word hany _ ih =>
    by_cases hstar : c = starByte
    · rw [hstar]
      exact .star [starByte] ih
    · exact .byte hstar hany ih

/-- Without a `*` in the string the two readings agree. -/
theorem Denotes.reads (h : Denotes pattern word) (hword : starByte ∉ word) : Reads pattern word := by
  induction h with
  | nil => exact .nil
  | star run _ ih =>
    have hhead : ∀ l : Bytes, starByte ∉ l → l.head? ≠ some starByte := by
      intro l hl h
      exact hl (mem_of_head? h)
    exact .star run (hhead _ hword) (ih fun h => hword (mem_append_right run h))
  | any c _ ih => exact .any c (ih fun h => hword (mem_cons_of_mem c h))
  | @byte c _ _ _ hany _ ih => exact .byte hany (ih fun h => hword (mem_cons_of_mem c h))

theorem reads_nil : Reads [] word ↔ word = [] := by
  constructor
  · intro h
    cases h
    rfl
  · rintro rfl
    exact .nil

/-- One pattern byte against the equal byte of the string, or a question mark. -/
theorem reads_step (h : x = anyByte ∨ x = c) :
    Reads (x :: pattern) (c :: word) ↔ Reads pattern word := by
  by_cases hany : x = anyByte
  · subst hany
    constructor
    · intro h
      generalize hw : c :: word = w at h
      cases h with
      | any d h => exact (cons.inj hw).2 ▸ h
      | byte hne h => exact absurd rfl hne
    · exact Reads.any c
  obtain rfl : x = c := h.resolve_left hany
  constructor
  · intro h
    generalize hw : x :: word = w at h
    cases h with
    | star run hhead h => exact absurd (by rw [← hw]; rfl) hhead
    | any d h => exact absurd rfl hany
    | byte hne h => exact (cons.inj hw).2 ▸ h
  · exact Reads.byte hany

theorem reads_star (h : word.head? ≠ some starByte) :
    Reads (starByte :: pattern) word ↔ ∃ t, t <:+ word ∧ Reads pattern t := by
  constructor
  · intro hr
    generalize hw : word = w at hr
    subst hw
    cases hr with
    | star run _ hr => exact ⟨_, suffix_append _ _, hr⟩
    | byte _ hr => exact absurd rfl h
  · rintro ⟨t, ⟨run, rfl⟩, ht⟩
    exact .star run h ht

theorem not_reads_cons (hany : x ≠ anyByte) (hstar : x ≠ starByte) (hne : x ≠ c) :
    ¬ Reads (x :: pattern) (c :: word) := by
  intro h
  generalize hw : c :: word = w at h
  cases h with
  | star run _ _ => exact hstar rfl
  | any d _ => exact hany rfl
  | byte _ _ => exact hne (cons.inj hw).1.symm

theorem reads_end : Reads pattern [] ↔ onlyStars pattern = true := by
  induction pattern with
  | nil => simp [reads_nil, onlyStars]
  | cons x pattern ih =>
    by_cases hx : x = starByte
    · have hdrop : onlyStars (starByte :: pattern) = onlyStars pattern := by simp [onlyStars]
      rw [hx, reads_star (by simp), hdrop, ← ih]
      simp
    have hfalse : onlyStars (x :: pattern) = false := by simp [onlyStars, hx]
    rw [hfalse]
    simp only [Bool.false_eq_true, iff_false]
    intro h
    generalize hw : ([] : Bytes) = w at h
    cases h with
    | star run _ _ => exact hx rfl
    | any _ _ => cases hw
    | byte _ _ => cases hw

/-- What the tail of a pattern reads is a suffix of what the pattern reads. -/
theorem Reads.tail (h : Reads (x :: pattern) word) : ∃ t, t <:+ word ∧ Reads pattern t := by
  cases h with
  | star run _ h => exact ⟨_, suffix_append _ _, h⟩
  | any c h => exact ⟨_, suffix_cons _ _, h⟩
  | byte _ h => exact ⟨_, suffix_cons _ _, h⟩

end

/-- The loop has come from the first slices to the second by comparing byte with byte. -/
inductive Along : Bytes → Bytes → Bytes → Bytes → Prop
  | refl (pattern name : Bytes) : Along pattern name pattern name
  | step {x c : UInt8} {pattern name pattern' name' : Bytes} :
    x = anyByte ∨ x = c → Along pattern name pattern' name' →
      Along (x :: pattern) (c :: name) pattern' name'

section
theorem Along.snoc (h : Along pattern name (x :: pattern') (c :: name'))
    (hx : x = anyByte ∨ x = c) : Along pattern name pattern' name' := by
  generalize hp : x :: pattern' = p at h
  generalize hn : c :: name' = n at h
  induction h with
  | refl pattern name =>
    subst hp hn
    exact .step hx (.refl _ _)
  | step hy _ ih => exact .step hy (ih hp hn)

/-- A later start of the pattern reads the rest of it later too, so that nothing is lost when the
loop forgets an earlier star. -/
theorem Along.reads (h : Along pattern name pattern' name') :
    ∀ {t}, t <:+ name → Reads pattern t → ∃ u, u <:+ name' ∧ Reads pattern' u := by
  induction h with
  | refl => exact fun ht hr => ⟨_, ht, hr⟩
  | @step x c pattern name pattern' name' hx _ ih =>
    intro t ht hr
    rw [suffix_cons_iff] at ht
    obtain rfl | ht := ht
    · exact ih suffix_rfl ((reads_step hx).1 hr)
    · obtain ⟨u, hu, hr⟩ := hr.tail
      exact ih (hu.trans ht) hr

end

/-- Some proper suffix of the retry position is read by the pattern after the star. -/
def Later : Option (Bytes × Bytes) → Prop
  | none => False
  | some (pattern, retry) => ∃ t, t <:+ retry.tail ∧ Reads pattern t

/-- The slices were reached from the last star. -/
def Reached (star : Option (Bytes × Bytes)) (pattern name : Bytes) : Prop :=
  ∀ q r, star = some (q, r) → Along q r pattern name

theorem later_retry : (Reads pattern retry.tail ∨ Later (some (pattern, retry.tail))) ↔
      Later (some (pattern, retry)) := by
  constructor
  · rintro (h | ⟨t, ht, hr⟩)
    · exact ⟨_, suffix_rfl, h⟩
    · exact ⟨t, ht.trans (tail_suffix _), hr⟩
  rintro ⟨t, ht, hr⟩
  by_cases heq : t = retry.tail
  · exact .inl (heq ▸ hr)
  right
  refine ⟨t, ?_, hr⟩
  cases hrt : retry.tail with
  | nil =>
    rw [hrt] at ht heq
    exact absurd (suffix_nil.1 ht) heq
  | cons d l =>
    rw [hrt] at ht heq
    exact (suffix_cons_iff.1 ht).resolve_left heq

theorem suffix_iff_tail {P : Bytes → Prop} :
    (∃ t, t <:+ c :: name ∧ P t) ↔ P (c :: name) ∨ ∃ t, t <:+ name ∧ P t := by
  simp only [suffix_cons_iff, or_and_right, exists_or, exists_eq_left]

theorem reached_none (pattern name : Bytes) : Reached none pattern name := by
  intro q r h
  cases h

theorem reached_refl (pattern name : Bytes) : Reached (some (pattern, name)) pattern name := by
  intro q r h
  cases h
  exact .refl _ _

theorem Reached.snoc (h : Reached star (x :: pattern) (c :: name)) (hx : x = anyByte ∨ x = c) :
    Reached star pattern name := fun q r hs => (h q r hs).snoc hx

/-- A later start after the last star would read the rest of the pattern from here on. -/
theorem Reached.later (h : Reached star pattern name) (hl : Later star) :
    ∃ u, u <:+ name ∧ Reads pattern u := by
  cases star with
  | none => exact hl.elim
  | some s =>
    obtain ⟨t, ht, hr⟩ := hl
    exact (h s.1 s.2 rfl).reads (ht.trans (tail_suffix _)) hr

/-- The loop decides `Reads`, from its slices or from a later start after the last star. -/
theorem wildcardLoop_iff (h : Reached star pattern name) :
    wildcardLoop pattern name star = true ↔ Reads pattern name ∨ Later star := by
  induction pattern, name, star using wildcardLoop.induct with
  | case1 pattern star =>
    rw [wildcardLoop, ← reads_end]
    constructor
    · exact .inl
    rintro (hr | hl)
    · exact hr
    · obtain ⟨u, hu, hr⟩ := h.later hl
      exact suffix_nil.1 hu ▸ hr
  | case2 x pattern c name star hx ih =>
    rw [wildcardLoop_step hx, ih (h.snoc hx), reads_step hx]
  | case3 pattern c name star hx ih =>
    have hhead : (c :: name).head? ≠ some starByte := by
      intro hc
      exact hx (.inr (Option.some.inj hc).symm)
    have hread : Reads (starByte :: pattern) (c :: name) ↔
        Reads pattern (c :: name) ∨ Later (some (pattern, c :: name)) := by
      rw [reads_star hhead, suffix_iff_tail]
      rfl
    rw [wildcardLoop_star hx, ih (reached_refl _ _), ← hread]
    constructor
    · exact .inl
    rintro (hr | hl)
    · exact hr
    -- the new star stands for whatever the forgotten one would have skipped
    obtain ⟨u, hu, hr⟩ := h.later hl
    obtain ⟨t, ht, hr⟩ := hr.tail
    exact (reads_star hhead).2 ⟨t, ht.trans hu, hr⟩
  | case4 x pattern c name hx hstar q retry ih =>
    obtain ⟨hany, hne⟩ := not_or.1 hx
    rw [wildcardLoop, if_neg hx, if_neg hstar, ih (reached_refl _ _), later_retry]
    simp only [not_reads_cons hany hstar hne, false_or]
  | case5 x pattern c name hx hstar =>
    obtain ⟨hany, hne⟩ := not_or.1 hx
    rw [wildcardLoop, if_neg hx, if_neg hstar]
    simp [not_reads_cons hany hstar hne, Later]
  | case6 c name q retry ih =>
    rw [wildcardLoop, ih (reached_refl _ _), later_retry]
    simp [reads_nil]
  | case7 c name =>
    rw [wildcardLoop]
    simp [reads_nil, Later]

theorem casePatternMatch_iff (pattern word : Bytes) :
    casePatternMatch pattern word = true ↔ Reads pattern word := by
  rw [casePatternMatch, wildcardLoop_iff (reached_none _ _)]
  simp [Later]

/-- A name that starts with a dot is left to patterns that start with one. -/
def Shown (pattern name : Bytes) : Prop :=
  name.head? = some dotByte → pattern.head? = some dotByte

theorem globMatch_iff (pattern name : Bytes) :
    globMatch pattern name = true ↔ Reads pattern name ∧ Shown pattern name := by
  rw [globMatch, Shown]
  split
  · rename_i h
    simp [h.1, h.2]
  rename_i h
  rw [wildcardLoop_iff (reached_none _ _)]
  simp only [Later, or_false]
  exact ⟨fun hr => ⟨hr, fun hd => not_not.1 fun hp => h ⟨hd, hp⟩⟩, And.left⟩

/-- The matchers decide what a pattern denotes exactly where a star need not stand for a run that
begins with a `*`; so in particular on every string without that byte. -/
theorem wildcards_denote_iff (pattern word : Bytes) :
    ((casePatternMatch pattern word = true ↔ Denotes pattern word) ↔
      (Denotes pattern word → Reads pattern word)) ∧
    ((globMatch pattern word = true ↔ Denotes pattern word ∧ Shown pattern word) ↔
      (Shown pattern word → Denotes pattern word → Reads pattern word)) ∧
    (starByte ∉ word → Denotes pattern word → Reads pattern word) := by
  have hrd : Reads pattern word → Denotes pattern word := Reads.denotes
  rw [casePatternMatch_iff, globMatch_iff]
  refine ⟨?_, ?_, fun h hd => hd.reads h⟩
  · exact ⟨fun h => h.2, fun h => ⟨hrd, h⟩⟩
  constructor
  · exact fun h hs hd => (h.2 ⟨hd, hs⟩).1
  · exact fun h => ⟨fun hr => ⟨hrd hr.1, hr.2⟩, fun hd => ⟨h hd.2 hd.1, hd.2⟩⟩

/-- `case '*a' in *) ...` is not taken: the star is used up by the `*` of the word. -/
theorem star_misses_word :
    Denotes [starByte] [starByte, 0x61] ∧ casePatternMatch [starByte] [starByte, 0x61] = false ∧
      globMatch [starByte] [starByte, 0x61] = false := by
  refine ⟨.star [starByte, 0x61] .nil, ?_, ?_⟩
  · simp [casePatternMatch, wildcardLoop]
  · simp [globMatch, wildcardLoop]

end Ristux.Userland
