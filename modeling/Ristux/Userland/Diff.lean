import Ristux.Userland.Basic

-- `split_lines`, `lcs_ops` and `print_unified` of `userland/src/bin/diff.rs` (`split_lines` of
-- `patch.rs` is the same function). A cell of the table of `lcs_ops` is the value `lcs` at the
-- lines from its row and its column on.

namespace Ristux.Userland
open List
open Ristux.Linker (Bytes)

def carriageReturn : UInt8 := 0x0d

/-- `if line.ends_with(b"\r") { line = &line[..line.len() - 1]; }`. -/
def chomp (line : Bytes) : Bytes :=
  if line.getLast? = some carriageReturn then line.dropLast else line

/-- The loop of `split_lines` with the bytes since `start`. -/
def splitLinesLoop : Bytes → Bytes → List Bytes
  | line, [] => if line.isEmpty then [] else [chomp line]
  | line, b :: bytes =>
    if b = newline then chomp line :: splitLinesLoop [] bytes
    else splitLinesLoop (line ++ [b]) bytes

def splitLines (bytes : Bytes) : List Bytes := splitLinesLoop [] bytes

/-- The lines, each with its newline. -/
def joinLines (lines : List Bytes) : Bytes := lines.flatMap (· ++ [newline])

variable (left right : List Bytes)

namespace Diff

inductive Op where
  | equal (i : ℕ)
  | delete (i : ℕ)
  | insert (j : ℕ)
  deriving DecidableEq, Repr

def lcs : List Bytes → List Bytes → ℕ
  | l :: left, r :: right =>
    if l = r then lcs left right + 1 else max (lcs left (r :: right)) (lcs (l :: left) right)
  | [], _ => 0
  | _ :: _, [] => 0
termination_by left right => left.length + right.length

/-- The walk of `lcs_ops` from row `i` and column `j`, with the lines from there on. -/
def lcsOpsLoop : ℕ → ℕ → List Bytes → List Bytes → List Op
  | _, _, [], [] => []
  | i, j, l :: left, [] => .delete i :: lcsOpsLoop (i + 1) j left []
  | i, j, [], r :: right => .insert j :: lcsOpsLoop i (j + 1) [] right
  | i, j, l :: left, r :: right =>
    if l = r then .equal i :: lcsOpsLoop (i + 1) (j + 1) left right
    else if lcs (l :: left) right ≤ lcs left (r :: right) then
      .delete i :: lcsOpsLoop (i + 1) j left (r :: right)
    else .insert j :: lcsOpsLoop i (j + 1) (l :: left) right
termination_by _ _ left right => left.length + right.length

def lcsOps : List Op := lcsOpsLoop 0 0 left right

def pushHunkRange (sign : Bytes) (start len : ℕ) : Bytes :=
  sign ++ digits 10 start ++ text "," ++ digits 10 len

def opLine : Op → Bytes
  | .equal i => text " " ++ left.getD i []
  | .delete i => text "-" ++ left.getD i []
  | .insert j => text "+" ++ right.getD j []

def printUnified (leftPath rightPath : Bytes) (left right : List Bytes) (ops : List Op) : Bytes :=
  text "--- " ++ leftPath ++ [newline] ++ text "+++ " ++ rightPath ++ [newline] ++
    text "@@ " ++ pushHunkRange (text "-") 1 left.length ++ text " " ++
    pushHunkRange (text "+") 1 right.length ++ text " @@\n" ++
    joinLines (ops.map (opLine left right))

/-- What `diff -u` prints for two files; nothing when they are equal. -/
def diffUnified (leftPath rightPath leftBytes rightBytes : Bytes) : Bytes :=
  if leftBytes = rightBytes then []
  else
    let left := splitLines leftBytes
    let right := splitLines rightBytes
    printUnified leftPath rightPath left right (lcsOps left right)

end Diff

theorem chomp_eq (h : carriageReturn ∉ line) : chomp line = line := by
  rw [chomp, if_neg]
  exact fun hlast => h (mem_of_getLast? hlast)

theorem splitLinesLoop_append (cur : Bytes) (h : newline ∉ line) (rest : Bytes) :
    splitLinesLoop cur (line ++ rest) = splitLinesLoop (cur ++ line) rest := by
  induction line generalizing cur with
  | nil => simp
  | cons b line ih =>
    obtain ⟨hb, hline⟩ := not_or.1 fun hmem => h (mem_cons.2 hmem)
    rw [cons_append, splitLinesLoop, if_neg (Ne.symm hb), ih _ hline]
    simp

/-- Lines without a newline or a carriage return come back from their text. -/
theorem splitLines_joinLines (h : ∀ line ∈ lines, newline ∉ line ∧ carriageReturn ∉ line) :
    splitLines (joinLines lines) = lines := by
  induction lines with
  | nil => rfl
  | cons line lines ih =>
    obtain ⟨hnew, hret⟩ := h line mem_cons_self
    have hjoin : joinLines (line :: lines) = line ++ newline :: joinLines lines := by
      simp [joinLines]
    rw [splitLines, hjoin, splitLinesLoop_append _ hnew, nil_append, splitLinesLoop,
      if_pos rfl, chomp_eq hret]
    exact congrArg _ (ih (forall_mem_cons.1 h).2)

/-- A text file: it is empty or ends with a newline, and there is no carriage return in it. Its
bytes are counted by a `usize`. -/
structure TextFile (bytes : Bytes) : Prop where
  ended : bytes = [] ∨ bytes.getLast? = some newline
  noReturn : carriageReturn ∉ bytes
  fits : bytes.length ≤ usizeMax

theorem splitLinesLoop_spec (bytes : Bytes) :
    ∀ line, newline ∉ line → carriageReturn ∉ line → carriageReturn ∉ bytes →
      (line ++ bytes = [] ∨ (line ++ bytes).getLast? = some newline) →
      joinLines (splitLinesLoop line bytes) = line ++ bytes ∧
        ∀ l ∈ splitLinesLoop line bytes, newline ∉ l ∧ carriageReturn ∉ l := by
  induction bytes with
  | nil =>
    intro line hnew hret _ hend
    have hnil : line = [] := by
      rcases hend with h | h
      · simpa using h
      · rw [append_nil] at h
        exact absurd (mem_of_getLast? h) hnew
    rw [hnil]
    exact ⟨rfl, fun l hl => by cases hl⟩
  | cons b bytes ih =>
    intro line hnew hret hbytes hend
    obtain ⟨hb, hrest⟩ := not_or.1 fun hmem => hbytes (mem_cons.2 hmem)
    by_cases hnl : b = newline
    · subst hnl
      have htail : ([] : Bytes) ++ bytes = [] ∨ ([] ++ bytes).getLast? = some newline := by
        cases bytes with
        | nil => exact .inl rfl
        | cons c bytes =>
          right
          have := hend.resolve_left (by simp)
          simpa [getLast?_append, getLast?_cons_cons] using this
      obtain ⟨hjoin, hlines⟩ := ih [] (by simp) (by simp) hrest htail
      rw [splitLinesLoop, if_pos rfl, chomp_eq hret]
      refine ⟨?_, ?_⟩
      · simp only [joinLines, flatMap_cons] at hjoin ⊢
        rw [hjoin]
        simp
      exact forall_mem_cons.2 ⟨⟨hnew, hret⟩, hlines⟩
    · have happend : line ++ b :: bytes = line ++ [b] ++ bytes := by simp
      rw [happend] at hend ⊢
      rw [splitLinesLoop, if_neg hnl]
      exact ih _ (by simpa using ⟨hnew, Ne.symm hnl⟩) (by simpa using ⟨hret, hb⟩) hrest hend

section
theorem TextFile.join (h : TextFile bytes) : joinLines (splitLines bytes) = bytes :=
  (splitLinesLoop_spec bytes [] (by simp) (by simp) h.noReturn h.ended).1

theorem TextFile.lines (h : TextFile bytes) :
    ∀ l ∈ splitLines bytes, newline ∉ l ∧ carriageReturn ∉ l :=
  (splitLinesLoop_spec bytes [] (by simp) (by simp) h.noReturn h.ended).2

theorem length_le_joinLines (lines : List Bytes) : lines.length ≤ (joinLines lines).length := by
  induction lines with
  | nil => exact Nat.le_refl _
  | cons l lines ih =>
    simp only [joinLines, flatMap_cons, length_append, length_cons] at ih ⊢
    omega

theorem TextFile.length_le (h : TextFile bytes) : (splitLines bytes).length ≤ usizeMax := by
  have hle := length_le_joinLines (splitLines bytes)
  rw [h.join] at hle
  exact hle.trans h.fits

end

end Ristux.Userland
