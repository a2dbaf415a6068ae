import Ristux.Userland.Diff

-- `parse_patch` and `apply_hunks` of `userland/src/bin/patch.rs`, with the slices of lines and of
-- bytes that start at an index in place of the index.

namespace Ristux.Userland.Patch
open List Option Nat
open Ristux.Linker (Bytes)
open Ristux.Userland.Diff

inductive HunkLine where
  | context (bytes : Bytes)
  | remove (bytes : Bytes)
  | add (bytes : Bytes)
  deriving DecidableEq, Repr

structure Hunk where
  oldStart : ℕ
  oldCount : ℕ
  lines : List HunkLine
  deriving DecidableEq, Repr

structure FilePatch where
  oldPath : Option Bytes
  newPath : Option Bytes
  hunks : List Hunk
  deriving DecidableEq, Repr

variable (bytes : Bytes)

def parseUsize : Option ℕ :=
  if bytes.isEmpty then none else readDigits 10 0 bytes

/-- The outer `Option` is a line that is no header, the inner one `/dev/null`. -/
def headerPath (line marker : Bytes) : Option (Option Bytes) :=
  if ¬ marker <+: line then none
  else
    let path := (trimAscii (line.drop marker.length)).takeWhile fun b => !isAsciiWhitespace b
    if path = text "/dev/null" then some none
    else if path.isEmpty then none
    else some (some path)

/-- `parse_range`, with the bytes after the range. -/
def parseRange (sign : UInt8) : Option ((ℕ × ℕ) × Bytes) :=
  if bytes.head? ≠ some sign then none
  else do
    let bytes := bytes.tail
    let start ← parseUsize (bytes.takeWhile isAsciiDigit)
    let rest := bytes.dropWhile isAsciiDigit
    if rest.head? = some 0x2c then
      let count ← parseUsize (rest.tail.takeWhile isAsciiDigit)
      some ((start, count), rest.tail.dropWhile isAsciiDigit)
    else some ((start, 1), rest)

def parseHunkHeader (line : Bytes) : Option (ℕ × ℕ × ℕ) :=
  if ¬ text "@@" <+: line then none
  else do
    let (old, rest) ← parseRange ((line.drop 2).dropWhile (· == space)) 0x2d
    let (new, _) ← parseRange (rest.dropWhile (· == space)) 0x2b
    some (old.1, old.2, new.2)

/-- The loop of `parse_hunk`: the hunk's lines, `seen_old`, `seen_new` and the lines after it. -/
def parseHunkLines : List Bytes → Option (List HunkLine × ℕ × ℕ × List Bytes)
  | [] => some ([], 0, 0, [])
  | line :: lines =>
    if text "@@" <+: line ∨ text "--- " <+: line then some ([], 0, 0, line :: lines)
    else if text "\\" <+: line then parseHunkLines lines
    else
      match line with
      | [] => none
      | kind :: content => do
        let (rest, old, new, after) ← parseHunkLines lines
        if kind = 0x20 then some (.context content :: rest, old + 1, new + 1, after)
        else if kind = 0x2d then some (.remove content :: rest, old + 1, new, after)
        else if kind = 0x2b then some (.add content :: rest, old, new + 1, after)
        else none

def parseHunk : List Bytes → Option (Hunk × List Bytes)
  | [] => none
  | header :: lines => do
    let (oldStart, oldCount, newCount) ← parseHunkHeader header
    let (hunkLines, seenOld, seenNew, after) ← parseHunkLines lines
    if seenOld ≠ oldCount ∨ seenNew ≠ newCount then none
    else some (⟨oldStart, oldCount, hunkLines⟩, after)

theorem parseHunkLines_length
    (h : parseHunkLines lines = some r) : r.2.2.2.length ≤ lines.length := by
  induction lines generalizing r with
  | nil =>
    cases h
    exact Nat.le_refl _
  | cons line lines ih =>
    rw [parseHunkLines.eq_def] at h
    dsimp only at h
    split at h
    · cases h
      exact Nat.le_refl _
    split at h
    · exact (ih h).trans (le_succ _)
    split at h
    · cases h
    obtain ⟨s, hs, h⟩ := bind_eq_some_iff.1 h
    have hlen := (ih hs).trans (le_succ _)
    split_ifs at h
    all_goals
      cases h
      exact hlen

theorem parseHunk_length (h : parseHunk lines = some r) : r.2.length < lines.length := by
  cases lines with
  | nil => cases h
  | cons header lines =>
    obtain ⟨counts, _, h⟩ := bind_eq_some_iff.1 h
    obtain ⟨s, hs, h⟩ := bind_eq_some_iff.1 h
    have hlen := parseHunkLines_length hs
    dsimp only at h
    split at h
    · cases h
    · cases h
      exact lt_succ_of_le hlen

/-- The hunks of one file and the lines after them. -/
def parseHunks : List Bytes → Option (List Hunk × List Bytes)
  | [] => some ([], [])
  | line :: lines =>
    if text "--- " <+: line then some ([], line :: lines)
    else if text "@@" <+: line then
      match h : parseHunk (line :: lines) with
      | none => none
      | some (hunk, rest) => (parseHunks rest).map fun r => (hunk :: r.1, r.2)
    else parseHunks lines
termination_by lines => lines.length
decreasing_by
  · exact parseHunk_length h
  · simp

theorem parseHunks_length (h : parseHunks lines = some r) : r.2.length ≤ lines.length := by
  induction lines using parseHunks.induct generalizing r with
  | case1 =>
    rw [parseHunks] at h
    cases h
    exact Nat.le_refl _
  | case2 line lines hfile =>
    rw [parseHunks, if_pos hfile] at h
    cases h
    exact Nat.le_refl _
  | case3 line lines hfile hhunk hnone =>
    rw [parseHunks, if_neg hfile, if_pos hhunk] at h
    split at h
    · cases h
    · rename_i hsome
      cases hnone.symm.trans hsome
  | case4 line lines hfile hhunk hunk rest hsome ih =>
    rw [parseHunks, if_neg hfile, if_pos hhunk] at h
    split at h
    · cases h
    rename_i h₁
    obtain ⟨rfl, rfl⟩ := Prod.mk.inj (Option.some.inj (hsome.symm.trans h₁))
    obtain ⟨s, hs, rfl⟩ := map_eq_some_iff.1 h
    exact (ih hs).trans (parseHunk_length hsome).le
  | case5 line lines hfile hhunk ih =>
    rw [parseHunks, if_neg hfile, if_neg hhunk] at h
    exact (ih h).trans (le_succ _)

/-- The loop of `parse_patch` from lines that begin with a file header on; other lines before it
are skipped. -/
def parseFiles : List Bytes → Option (List FilePatch)
  | [] => some []
  | line :: lines =>
    if ¬ text "--- " <+: line then parseFiles lines
    else
      match headerPath line (text "--- "), lines with
      | none, _ => none
      | some _, [] => none
      | some oldPath, next :: lines =>
        match headerPath next (text "+++ ") with
        | none => none
        | some newPath =>
          match h : parseHunks lines with
          | none => none
          | some (hunks, rest) =>
            if hunks.isEmpty then none
            else (parseFiles rest).map fun patches => ⟨oldPath, newPath, hunks⟩ :: patches
termination_by lines => lines.length
decreasing_by
  · simp
  have := parseHunks_length h
  simp only [length_cons] at this ⊢
  omega

def parsePatch : Option (List FilePatch) :=
  match parseFiles (splitLines bytes) with
  | none => none
  | some patches => if patches.isEmpty then none else some patches

def hunkBase (hunk : Hunk) : ℕ :=
  if hunk.oldCount = 0 ∨ hunk.oldStart = 0 then hunk.oldStart else hunk.oldStart - 1

/-- The lines of one hunk against the input from `source` on: the lines put out and the lines of
the input after the hunk. -/
def applyLines : List Bytes → List HunkLine → Option (List Bytes × List Bytes)
  | input, [] => some ([], input)
  | input, .context bytes :: lines =>
    if input.head? ≠ some bytes then none
    else (applyLines input.tail lines).map fun r => (bytes :: r.1, r.2)
  | input, .remove bytes :: lines =>
    if input.head? ≠ some bytes then none else applyLines input.tail lines
  | input, .add bytes :: lines => (applyLines input lines).map fun r => (bytes :: r.1, r.2)

/-- The loop of `apply_hunks` with `cursor` and the input from there on. -/
def applyHunksLoop (length : ℕ) : ℕ → List Bytes → List Hunk → Option (List Bytes)
  | _, input, [] => some input
  | cursor, input, hunk :: hunks =>
    let base := hunkBase hunk
    if base < cursor ∨ length < base then none
    else do
      let kept := input.take (base - cursor)
      let (out, rest) ← applyLines (input.drop (base - cursor)) hunk.lines
      let after ← applyHunksLoop length (length - rest.length) rest hunks
      some (kept ++ out ++ after)

def applyHunks (input : List Bytes) (hunks : List Hunk) : Option (List Bytes) :=
  applyHunksLoop input.length 0 input hunks

def HunkLine.render : HunkLine → Bytes
  | .context bytes => text " " ++ bytes
  | .remove bytes => text "-" ++ bytes
  | .add bytes => text "+" ++ bytes

/-- The line an operation of the edit script stands for. -/
def hunkLine (left right : List Bytes) : Op → HunkLine
  | .equal i => .context (left.getD i [])
  | .delete i => .remove (left.getD i [])
  | .insert j => .add (right.getD j [])

def olds : List HunkLine → List Bytes
  | [] => []
  | .context bytes :: lines => bytes :: olds lines
  | .remove bytes :: lines => bytes :: olds lines
  | .add _ :: lines => olds lines

def news : List HunkLine → List Bytes
  | [] => []
  | .context bytes :: lines => bytes :: news lines
  | .remove _ :: lines => news lines
  | .add bytes :: lines => bytes :: news lines

theorem opLine_eq (left right : List Bytes) (op : Op) :
    opLine left right op = (hunkLine left right op).render := by
  cases op <;> rfl

/-- The edit script leads from the left lines to the right ones, whatever the table of `lcs_ops`
prefers. -/
theorem lcsOpsLoop_spec (i j : ℕ) (ls rs : List Bytes)
    (hl : left.drop i = ls) (hr : right.drop j = rs) :
    olds ((lcsOpsLoop i j ls rs).map (hunkLine left right)) = ls ∧
      news ((lcsOpsLoop i j ls rs).map (hunkLine left right)) = rs := by
  have hhead : ∀ (xs : List Bytes) k y ys, xs.drop k = y :: ys → xs.getD k [] = y := by
    intro xs k y ys h
    have := congrArg head? h
    rw [head?_drop, head?_cons] at this
    rw [getD_eq_getElem?_getD, this, getD_some]
  have htail : ∀ (xs : List Bytes) k y ys, xs.drop k = y :: ys → xs.drop (k + 1) = ys := by
    intro xs k y ys h
    rw [← tail_drop, h, tail_cons]
  induction i, j, ls, rs using lcsOpsLoop.induct with
  | case1 i j =>
    rw [lcsOpsLoop]
    exact ⟨rfl, rfl⟩
  | case2 i j l ls ih =>
    obtain ⟨ho, hn⟩ := ih (htail _ _ _ _ hl) hr
    rw [lcsOpsLoop]
    simp only [map_cons, hunkLine, olds, news, hhead _ _ _ _ hl]
    exact ⟨congrArg _ ho, hn⟩
  | case3 i j r rs ih =>
    obtain ⟨ho, hn⟩ := ih hl (htail _ _ _ _ hr)
    rw [lcsOpsLoop]
    simp only [map_cons, hunkLine, olds, news, hhead _ _ _ _ hr]
    exact ⟨ho, congrArg _ hn⟩
  | case4 i j l ls rs ih =>
    obtain ⟨ho, hn⟩ := ih (htail _ _ _ _ hl) (htail _ _ _ _ hr)
    rw [lcsOpsLoop, if_pos rfl]
    simp only [map_cons, hunkLine, olds, news, hhead _ _ _ _ hl]
    exact ⟨congrArg _ ho, congrArg _ hn⟩
  | case5 i j l ls r rs hne hle ih =>
    obtain ⟨ho, hn⟩ := ih (htail _ _ _ _ hl) hr
    rw [lcsOpsLoop, if_neg hne, if_pos hle]
    simp only [map_cons, hunkLine, olds, news, hhead _ _ _ _ hl]
    exact ⟨congrArg _ ho, hn⟩
  | case6 i j l ls r rs hne hle ih =>
    obtain ⟨ho, hn⟩ := ih hl (htail _ _ _ _ hr)
    rw [lcsOpsLoop, if_neg hne, if_neg hle]
    simp only [map_cons, hunkLine, olds, news, hhead _ _ _ _ hr]
    exact ⟨ho, congrArg _ hn⟩

/-- The hunk `print_unified` prints for two lists of lines. -/
def script (left right : List Bytes) : List HunkLine :=
  (lcsOps left right).map (hunkLine left right)

theorem olds_script (left right : List Bytes) : olds (script left right) = left :=
  (lcsOpsLoop_spec 0 0 left right rfl rfl).1

theorem news_script (left right : List Bytes) : news (script left right) = right :=
  (lcsOpsLoop_spec 0 0 left right rfl rfl).2

theorem applyLines_olds (lines : List HunkLine) (rest : List Bytes) :
    applyLines (olds lines ++ rest) lines = some (news lines, rest) := by
  induction lines with
  | nil => rfl
  | cons line lines ih =>
    cases line with
    | context bytes => simp [applyLines, olds, news, ih]
    | remove bytes => simp [applyLines, olds, news, ih]
    | add bytes => simp [applyLines, olds, news, ih]

/-- A removed line that would be printed as the header of the next file. -/
def LooksLikeHeader (lines : List HunkLine) : Prop :=
  ∃ bytes, HunkLine.remove bytes ∈ lines ∧ text "-- " <+: bytes

theorem render_not_at (line : HunkLine) : ¬ text "@@" <+: line.render := by
  cases line <;> simp [HunkLine.render, text]

theorem render_not_backslash (line : HunkLine) : ¬ text "\\" <+: line.render := by
  cases line <;> simp [HunkLine.render, text]

theorem render_header_iff (line : HunkLine) :
    text "--- " <+: line.render ↔ ∃ bytes, line = .remove bytes ∧ text "-- " <+: bytes := by
  cases line with
  | context bytes => simp [HunkLine.render, text]
  | remove bytes => simp [HunkLine.render, text]
  | add bytes => simp [HunkLine.render, text]

theorem parseHunkLines_render (line : HunkLine) (lines : List Bytes)
    (h : ¬ text "--- " <+: line.render) :
    parseHunkLines (line.render :: lines) = (parseHunkLines lines).map fun r =>
      (line :: r.1, r.2.1 + (olds [line]).length, r.2.2.1 + (news [line]).length, r.2.2.2) := by
  rw [parseHunkLines.eq_def]
  dsimp only
  rw [if_neg (not_or.2 ⟨render_not_at line, h⟩), if_neg (render_not_backslash line)]
  cases line with
  | context bytes => cases parseHunkLines lines <;> rfl
  | remove bytes => cases parseHunkLines lines <;> rfl
  | add bytes => cases parseHunkLines lines <;> rfl

theorem length_olds_cons (line : HunkLine) (lines : List HunkLine) :
    (olds (line :: lines)).length = (olds lines).length + (olds [line]).length := by
  cases line <;> rfl

theorem length_news_cons (line : HunkLine) (lines : List HunkLine) :
    (news (line :: lines)).length = (news lines).length + (news [line]).length := by
  cases line <;> rfl

theorem parseHunkLines_script (h : ¬ LooksLikeHeader lines) :
    parseHunkLines (lines.map HunkLine.render) = some (lines, (olds lines).length,
      (news lines).length, []) := by
  induction lines with
  | nil => rfl
  | cons line lines ih =>
    have hline : ¬ text "--- " <+: line.render := by
      rw [render_header_iff]
      rintro ⟨bytes, rfl, hb⟩
      exact h ⟨bytes, mem_cons_self, hb⟩
    have hlines : ¬ LooksLikeHeader lines := by
      rintro ⟨bytes, hmem, hb⟩
      exact h ⟨bytes, mem_cons_of_mem _ hmem, hb⟩
    rw [map_cons, parseHunkLines_render _ _ hline, ih hlines, length_olds_cons line lines,
      length_news_cons line lines]
    rfl

/-- The hunk ends at such a line, before all its old lines have been seen. -/
theorem parseHunkLines_short (h : LooksLikeHeader lines) : ∃ r,
    parseHunkLines (lines.map HunkLine.render) = some r ∧ r.2.1 < (olds lines).length := by
  induction lines with
  | nil =>
    obtain ⟨bytes, hmem, _⟩ := h
    cases hmem
  | cons line lines ih =>
    by_cases hline : text "--- " <+: line.render
    · have hparse : parseHunkLines (line.render :: lines.map HunkLine.render) =
          some ([], 0, 0, line.render :: lines.map HunkLine.render) := by
        exact if_pos (.inr hline)
      obtain ⟨bytes, rfl, _⟩ := (render_header_iff line).1 hline
      exact ⟨_, hparse, by simp [olds]⟩
    have hlines : LooksLikeHeader lines := by
      obtain ⟨bytes, hmem, hb⟩ := h
      rcases mem_cons.1 hmem with rfl | hmem
      · exact absurd ((render_header_iff _).2 ⟨bytes, rfl, hb⟩) hline
      · exact ⟨bytes, hmem, hb⟩
    obtain ⟨r, hr, hlt⟩ := ih hlines
    refine ⟨_, by rw [map_cons, parseHunkLines_render _ _ hline, hr]; rfl, ?_⟩
    rw [length_olds_cons line lines]
    exact Nat.add_lt_add_right hlt _

variable {rest path line : Bytes}

theorem takeWhile_digits (h : ∀ b ∈ ds, isAsciiDigit b = true)
    (hrest : ∀ b, rest.head? = some b → isAsciiDigit b = false) :
    (ds ++ rest).takeWhile isAsciiDigit = ds ∧ (ds ++ rest).dropWhile isAsciiDigit = rest := by
  rw [takeWhile_append_of_pos h, dropWhile_append_of_pos h]
  cases rest with
  | nil => simp
  | cons b rest => simp [hrest b rfl]

theorem parseUsize_digits (h : n ≤ usizeMax) : parseUsize (digits 10 n) = some n := by
  rw [parseUsize, if_neg, readDigits_digits (by omega) (by omega) h]
  simpa using digits_ne_nil 10 n

theorem parseRange_pushHunkRange (hs : start ≤ usizeMax)
    (hl : len ≤ usizeMax) (hrest : ∀ b, rest.head? = some b → isAsciiDigit b = false) :
    parseRange (pushHunkRange [sign] start len ++ rest) sign = some ((start, len), rest) := by
  have hdigits : ∀ n, ∀ b ∈ digits 10 n, isAsciiDigit b = true := fun n =>
    isAsciiDigit_of_mem_digits (by omega) (by omega)
  have hcomma : pushHunkRange [sign] start len ++ rest =
      sign :: (digits 10 start ++ 0x2c :: (digits 10 len ++ rest)) := by
    simp [pushHunkRange, text]
  have hnot : ∀ b, (0x2c :: (digits 10 len ++ rest)).head? = some b → isAsciiDigit b = false := by
    simp [isAsciiDigit]
  obtain ⟨htake, hdrop⟩ := takeWhile_digits (hdigits start) hnot
  obtain ⟨htake', hdrop'⟩ := takeWhile_digits (hdigits len) hrest
  rw [hcomma, parseRange]
  simp [htake, hdrop, htake', hdrop', parseUsize_digits hs, parseUsize_digits hl]

/-- The header line of the one hunk diff prints. -/
def unifiedHeader (n m : ℕ) : Bytes :=
  text "@@ " ++ pushHunkRange (text "-") 1 n ++ text " " ++ pushHunkRange (text "+") 1 m ++
    text " @@"

theorem parseHunkHeader_unifiedHeader (hn : n ≤ usizeMax) (hm : m ≤ usizeMax) :
    parseHunkHeader (unifiedHeader n m) = some (1, n, m) := by
  have hone : (1 : ℕ) ≤ usizeMax := by decide
  have hspace : ∀ (sign : UInt8) (start len : ℕ) (rest : Bytes), sign ≠ space →
      (space :: (pushHunkRange [sign] start len ++ rest)).dropWhile (· == space) =
        pushHunkRange [sign] start len ++ rest := by
    intro sign start len rest h
    simp [pushHunkRange, h]
  have hline : unifiedHeader n m = text "@@" ++ space :: (pushHunkRange [0x2d] 1 n ++
      space :: (pushHunkRange [0x2b] 1 m ++ text " @@")) := by
    simp [unifiedHeader, text, space]
  have hnot : ∀ b, (text " @@").head? = some b → isAsciiDigit b = false := by
    simp [text, isAsciiDigit]
  have hdrop : ∀ rest : Bytes, (text "@@" ++ rest).drop 2 = rest := fun _ => rfl
  rw [parseHunkHeader, if_neg (by rw [hline]; simp), hline, hdrop, hspace _ _ _ _ (by decide),
    parseRange_pushHunkRange hone hn (by simp [space, isAsciiDigit])]
  simp only [bind_eq_bind, bind_some]
  rw [hspace _ _ _ _ (by decide), parseRange_pushHunkRange hone hm hnot]
  rfl

/-- A path as the arguments of diff may name it. -/
def NoWhitespace (path : Bytes) : Prop := ∀ b ∈ path, isAsciiWhitespace b = false

theorem headerPath_append (h : NoWhitespace path) : headerPath (marker ++ path) marker =
      if path = [] then none else some (if path = text "/dev/null" then none else some path) := by
  have htake : path.takeWhile (fun b => !isAsciiWhitespace b) = path := by
    rw [takeWhile_eq_self_iff]
    intro b hb
    rw [h b hb]
    rfl
  rw [headerPath, if_neg (by simp), drop_left, trimAscii, Lib.trimBy_eq_self h, htake]
  by_cases hnull : path = text "/dev/null"
  · subst hnull
    rfl
  by_cases hnil : path = []
  · subst hnil
    rfl
  · simp [hnull]

section
theorem printUnified_eq (leftPath rightPath : Bytes) (left right : List Bytes) :
    printUnified leftPath rightPath left right (lcsOps left right) =
      joinLines ((text "--- " ++ leftPath) :: (text "+++ " ++ rightPath) ::
        unifiedHeader left.length right.length :: (script left right).map HunkLine.render) := by
  have hmap : (lcsOps left right).map (opLine left right) =
      (script left right).map HunkLine.render := by
    rw [script, List.map_map]
    exact map_congr_left fun op _ => opLine_eq left right op
  rw [printUnified, hmap]
  simp [joinLines, unifiedHeader, text, newline]

/-- Lines without a newline or a carriage return. -/
def Plain (line : Bytes) : Prop := newline ∉ line ∧ carriageReturn ∉ line

theorem Plain.append (h : Plain xs) (h' : Plain ys) : Plain (xs ++ ys) :=
  ⟨fun hm => (mem_append.1 hm).elim h.1 h'.1, fun hm => (mem_append.1 hm).elim h.2 h'.2⟩

theorem plain_digits (n : ℕ) : Plain (digits 10 n) := by
  have hdigits : ∀ b ∈ digits 10 n, isAsciiDigit b = true :=
    isAsciiDigit_of_mem_digits (by omega) (by omega)
  constructor
  · intro h
    exact absurd (hdigits _ h) (by decide)
  · intro h
    exact absurd (hdigits _ h) (by decide)

theorem plain_unifiedHeader (n m : ℕ) : Plain (unifiedHeader n m) := by
  have hrange : ∀ sign len, Plain sign → Plain (pushHunkRange sign 1 len) := by
    intro sign len h
    exact ((h.append (plain_digits 1)).append ⟨by decide, by decide⟩).append (plain_digits len)
  have hold := hrange (text "-") n ⟨by decide, by decide⟩
  have hnew := hrange (text "+") m ⟨by decide, by decide⟩
  refine Plain.append (Plain.append (Plain.append (Plain.append ?_ hold) ?_) hnew) ?_
  all_goals exact ⟨by decide, by decide⟩

theorem plain_render (hold : ∀ l ∈ olds lines, Plain l) (hnew : ∀ l ∈ news lines, Plain l) :
    ∀ l ∈ lines.map HunkLine.render, Plain l := by
  induction lines with
  | nil => exact forall_mem_nil _
  | cons line lines ih =>
    cases line with
    | context bytes =>
      obtain ⟨hb, hold⟩ := forall_mem_cons.1 hold
      obtain ⟨-, hnew⟩ := forall_mem_cons.1 hnew
      exact forall_mem_cons.2 ⟨Plain.append ⟨by decide, by decide⟩ hb, ih hold hnew⟩
    | remove bytes =>
      obtain ⟨hb, hold⟩ := forall_mem_cons.1 hold
      exact forall_mem_cons.2 ⟨Plain.append ⟨by decide, by decide⟩ hb, ih hold hnew⟩
    | add bytes =>
      obtain ⟨hb, hnew⟩ := forall_mem_cons.1 hnew
      exact forall_mem_cons.2 ⟨Plain.append ⟨by decide, by decide⟩ hb, ih hold hnew⟩

theorem NoWhitespace.plain (h : NoWhitespace path) : Plain path :=
  ⟨fun hm => absurd (h _ hm) (by decide), fun hm => absurd (h _ hm) (by decide)⟩

theorem splitLines_printUnified (hl : NoWhitespace leftPath) (hr : NoWhitespace rightPath)
    (hleft : ∀ l ∈ left, Plain l) (hright : ∀ l ∈ right, Plain l) :
    splitLines (printUnified leftPath rightPath left right (lcsOps left right)) =
      (text "--- " ++ leftPath) :: (text "+++ " ++ rightPath) ::
        unifiedHeader left.length right.length :: (script left right).map HunkLine.render := by
  rw [printUnified_eq]
  apply splitLines_joinLines
  simp only [forall_mem_cons]
  refine ⟨Plain.append ⟨by decide, by decide⟩ hl.plain,
    Plain.append ⟨by decide, by decide⟩ hr.plain, plain_unifiedHeader _ _, ?_⟩
  exact plain_render (by rwa [olds_script]) (by rwa [news_script])

theorem parseHunk_script (hn : left.length ≤ usizeMax) (hm : right.length ≤ usizeMax) :
    (LooksLikeHeader (script left right) → parseHunk (unifiedHeader left.length right.length ::
        (script left right).map HunkLine.render) = none) ∧
    (¬ LooksLikeHeader (script left right) → parseHunk (unifiedHeader left.length right.length ::
        (script left right).map HunkLine.render) =
          some (⟨1, left.length, script left right⟩, [])) := by
  have hheader := parseHunkHeader_unifiedHeader hn hm
  constructor
  · intro h
    obtain ⟨r, hr, hlt⟩ := parseHunkLines_short h
    rw [olds_script] at hlt
    simp only [parseHunk, hheader, hr, bind_eq_bind, bind_some]
    exact if_pos (.inl hlt.ne)
  · intro h
    have hlines := parseHunkLines_script h
    rw [olds_script, news_script] at hlines
    simp [parseHunk, hheader, hlines]

theorem parseHunks_cons (hfile : ¬ text "--- " <+: line)
    (hhunk : text "@@" <+: line) : parseHunks (line :: lines) = match parseHunk (line :: lines) with
      | none => none
      | some (hunk, rest) => (parseHunks rest).map fun r => (hunk :: r.1, r.2) := by
  rw [parseHunks, if_neg hfile, if_pos hhunk]
  split <;> rename_i h <;> rw [h]

theorem parseFiles_cons {next : Bytes} (h : text "--- " <+: line) :
    parseFiles (line :: next :: lines) =
      match headerPath line (text "--- "), headerPath next (text "+++ "), parseHunks lines with
      | some oldPath, some newPath, some (hunks, rest) =>
        if hunks.isEmpty then none
        else (parseFiles rest).map fun patches => ⟨oldPath, newPath, hunks⟩ :: patches
      | _, _, _ => none := by
  rw [parseFiles.eq_def]
  dsimp only
  rw [if_neg (not_not.2 h)]
  cases headerPath line (text "--- ") with
  | none => rfl
  | some oldPath =>
    dsimp only
    cases headerPath next (text "+++ ") with
    | none => rfl
    | some newPath =>
      dsimp only
      split <;> rename_i h <;> rw [h]

/-- The path as the header of a patch gives it. -/
def pathOf (path : Bytes) : Option Bytes := if path = text "/dev/null" then none else some path

/-- patch reads what diff prints back as the one hunk it is, unless a path is empty or a removed
line looks like a header. -/
theorem parsePatch_printUnified (hl : NoWhitespace leftPath) (hr : NoWhitespace rightPath)
    (hleft : ∀ l ∈ left, Plain l) (hright : ∀ l ∈ right, Plain l)
    (hn : left.length ≤ usizeMax) (hm : right.length ≤ usizeMax) :
    (leftPath ≠ [] ∧ rightPath ≠ [] ∧ ¬ LooksLikeHeader (script left right) →
      parsePatch (printUnified leftPath rightPath left right (lcsOps left right)) =
        some [⟨pathOf leftPath, pathOf rightPath, [⟨1, left.length, script left right⟩]⟩]) ∧
    (¬ (leftPath ≠ [] ∧ rightPath ≠ [] ∧ ¬ LooksLikeHeader (script left right)) →
      parsePatch (printUnified leftPath rightPath left right (lcsOps left right)) = none) := by
  obtain ⟨hbad, hgood⟩ := parseHunk_script hn hm
  have hfile : ¬ text "--- " <+: unifiedHeader left.length right.length := by
    simp [unifiedHeader, text]
  have hhunk : text "@@" <+: unifiedHeader left.length right.length := by
    simp [unifiedHeader, text]
  rw [parsePatch, splitLines_printUnified hl hr hleft hright, parseFiles_cons (by simp),
    headerPath_append hl, headerPath_append hr, parseHunks_cons hfile hhunk]
  constructor
  · rintro ⟨hlp, hrp, hscript⟩
    rw [hgood hscript, if_neg hlp, if_neg hrp]
    simp [parseHunks, parseFiles, pathOf]
  intro h
  by_cases hlp : leftPath = []
  · rw [if_pos hlp]
  by_cases hrp : rightPath = []
  · rw [if_pos hrp, if_neg hlp]
  have hscript : LooksLikeHeader (script left right) := by
    by_contra hscript
    exact h ⟨hlp, hrp, hscript⟩
  rw [hbad hscript, if_neg hlp, if_neg hrp]

theorem applyHunks_script (left right : List Bytes) :
    applyHunks left [⟨1, left.length, script left right⟩] =
      if left = [] then none else some right := by
  have happly := applyLines_olds (script left right) []
  rw [olds_script, news_script, append_nil] at happly
  cases left with
  | nil => rfl
  | cons l left =>
    simp [applyHunks, applyHunksLoop, hunkBase, happly]

end

/-- patch takes what diff prints as one file with one hunk, and the hunk leads from the lines of
the left file to those of the right one. -/
def Inverts (leftPath rightPath leftBytes rightBytes : Bytes) : Prop :=
  ∃ oldPath newPath hunk, parsePatch (diffUnified leftPath rightPath leftBytes rightBytes) =
      some [⟨oldPath, newPath, [hunk]⟩] ∧
    applyHunks (splitLines leftBytes) [hunk] = some (splitLines rightBytes)

section
variable {leftPath rightPath leftBytes rightBytes : Bytes}

theorem inverts_iff (hl : NoWhitespace leftPath) (hr : NoWhitespace rightPath)
    (hleft : TextFile leftBytes) (hright : TextFile rightBytes) (hne : leftBytes ≠ rightBytes) :
    Inverts leftPath rightPath leftBytes rightBytes ↔
      leftPath ≠ [] ∧ rightPath ≠ [] ∧ splitLines leftBytes ≠ [] ∧
        ¬ LooksLikeHeader (script (splitLines leftBytes) (splitLines rightBytes)) := by
  obtain ⟨hgood, hbad⟩ := parsePatch_printUnified hl hr hleft.lines hright.lines
    hleft.length_le hright.length_le
  have happly := applyHunks_script (splitLines leftBytes) (splitLines rightBytes)
  rw [Inverts, diffUnified, if_neg hne]
  constructor
  · rintro ⟨oldPath, newPath, hunk, hparse, hrun⟩
    by_cases hc : leftPath ≠ [] ∧ rightPath ≠ [] ∧
        ¬ LooksLikeHeader (script (splitLines leftBytes) (splitLines rightBytes))
    · refine ⟨hc.1, hc.2.1, ?_, hc.2.2⟩
      rw [hgood hc] at hparse
      cases hparse
      rw [happly] at hrun
      intro hnil
      rw [if_pos hnil] at hrun
      cases hrun
    · rw [hbad hc] at hparse
      cases hparse
  · rintro ⟨hlp, hrp, hnil, hscript⟩
    exact ⟨_, _, _, hgood ⟨hlp, hrp, hscript⟩, by rw [happly, if_neg hnil]⟩

theorem eq_removes (h : news lines = []) : lines = (olds lines).map .remove := by
  induction lines with
  | nil => rfl
  | cons line lines ih =>
    cases line with
    | context bytes => cases h
    | remove bytes => exact congrArg _ (ih h)
    | add bytes => cases h

theorem mem_olds_of_remove {bytes : Bytes} (h : HunkLine.remove bytes ∈ lines) :
    bytes ∈ olds lines := by
  induction lines with
  | nil => cases h
  | cons line lines ih =>
    rcases mem_cons.1 h with rfl | hmem
    · exact mem_cons_self
    have hold := ih hmem
    cases line with
    | context b => exact mem_cons_of_mem _ hold
    | remove b => exact mem_cons_of_mem _ hold
    | add b => exact hold

/-- Some right file makes diff remove a line that looks like a header, unless there is none. -/
theorem looksLikeHeader_nil_iff (left : List Bytes) :
    LooksLikeHeader (script left []) ↔ ∃ line ∈ left, text "-- " <+: line := by
  have hscript : script left [] = left.map .remove := by
    have := eq_removes (news_script left [])
    rwa [olds_script] at this
  rw [LooksLikeHeader, hscript]
  simp

theorem textFile_nil : TextFile [] := ⟨.inl rfl, by simp, Nat.zero_le _⟩

theorem splitLines_ne_nil (h : TextFile leftBytes) : splitLines leftBytes ≠ [] ↔ leftBytes ≠ [] := by
  refine not_congr ⟨fun hnil => ?_, fun hnil => by rw [hnil]; rfl⟩
  have := h.join
  rw [hnil] at this
  exact this.symm

/-- patch inverts diff for a left file and every right file exactly when the left file is not
empty and no line of it begins with `-- `; for one pair of files it is enough that no removed line
does. -/
theorem patch_inverts_diff_iff (hl : NoWhitespace leftPath) (hr : NoWhitespace rightPath)
    (hleft : TextFile leftBytes) :
    ((∀ right, TextFile right → leftBytes ≠ right → Inverts leftPath rightPath leftBytes right) ↔
      leftPath ≠ [] ∧ rightPath ≠ [] ∧ leftBytes ≠ [] ∧
        ∀ line ∈ splitLines leftBytes, ¬ text "-- " <+: line) ∧
    ∀ right, TextFile right → leftBytes ≠ right → (Inverts leftPath rightPath leftBytes right ↔
        leftPath ≠ [] ∧ rightPath ≠ [] ∧ leftBytes ≠ [] ∧
          ∀ i, Op.delete i ∈ lcsOps (splitLines leftBytes) (splitLines right) →
            ¬ text "-- " <+: (splitLines leftBytes).getD i []) := by
  have hiff := fun right (hright : TextFile right) (hne : leftBytes ≠ right) =>
    inverts_iff hl hr hleft hright hne
  simp only [splitLines_ne_nil hleft] at hiff
  refine ⟨⟨fun h => ?_, fun ⟨hlp, hrp, hnil, hlines⟩ right hright hne => ?_⟩, ?_⟩
  · have hnonempty : leftBytes ≠ [] := by
      rintro rfl
      have htext : TextFile [newline] := ⟨.inr rfl, by decide, by decide⟩
      exact ((hiff _ htext (by decide)).1 (h _ htext (by decide))).2.2.1 rfl
    obtain ⟨hlp, hrp, _, hscript⟩ := (hiff _ textFile_nil hnonempty).1 (h _ textFile_nil hnonempty)
    refine ⟨hlp, hrp, hnonempty, fun line hline hlooks => hscript ?_⟩
    exact (looksLikeHeader_nil_iff _).2 ⟨line, hline, hlooks⟩
  · refine (hiff right hright hne).2 ⟨hlp, hrp, hnil, ?_⟩
    rintro ⟨bytes, hmem, hlooks⟩
    have := mem_olds_of_remove hmem
    rw [olds_script] at this
    exact hlines bytes this hlooks
  intro right hright hne
  rw [hiff right hright hne]
  refine and_congr_right fun _ => and_congr_right fun _ => and_congr_right fun _ => ?_
  constructor
  · intro h i hi hlooks
    exact h ⟨_, mem_map.2 ⟨.delete i, hi, rfl⟩, hlooks⟩
  rintro h ⟨bytes, hmem, hlooks⟩
  obtain ⟨op, hop, heq⟩ := mem_map.1 hmem
  cases op with
  | equal i => cases heq
  | delete i =>
    cases heq
    exact h i hop hlooks
  | insert j => cases heq

end

/-- A removed line `-- x` is taken for the header of a next file, and the patch is refused; and
the patch that fills an empty file does not apply. -/
theorem removed_line_and_empty_file_fail :
    ¬ Inverts (text "a") (text "b") (text "-- x\n") [] ∧
      ¬ Inverts (text "a") (text "b") [] (text "x\n") := by
  have ha : NoWhitespace (text "a") := forall_mem_singleton.2 rfl
  have hb : NoWhitespace (text "b") := forall_mem_singleton.2 rfl
  constructor
  · intro h
    have hline : TextFile (text "-- x\n") := ⟨.inr (by decide), by decide, by decide⟩
    obtain ⟨_, _, _, hscript⟩ := (inverts_iff ha hb hline textFile_nil (by decide)).1 h
    apply hscript
    exact (looksLikeHeader_nil_iff _).2 ⟨text "-- x", by decide, by decide⟩
  · intro h
    have hline : TextFile (text "x\n") := ⟨.inr (by decide), by decide, by decide⟩
    exact ((inverts_iff ha hb textFile_nil hline (by decide)).1 h).2.2.1 rfl

/-- The files `x` and `y`, each of one line. -/
theorem patch_inverts_diff_x : Inverts (text "a") (text "b") (text "x\n") (text "y\n") := by
  have ha : NoWhitespace (text "a") := forall_mem_singleton.2 rfl
  have hb : NoWhitespace (text "b") := forall_mem_singleton.2 rfl
  have hx : TextFile (text "x\n") := ⟨.inr (by decide), by decide, by decide⟩
  have hy : TextFile (text "y\n") := ⟨.inr (by decide), by decide, by decide⟩
  exact (patch_inverts_diff_iff ha hb hx).1.2 ⟨by decide, by decide, by decide, by decide⟩ _ hy
    (by decide)

end Ristux.Userland.Patch
