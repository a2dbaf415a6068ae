import Mathlib.Data.List.ReduceOption

-- What was written into a queue is cut into parts: the complete ones, in their order, and the
-- line that is still open. The last letters of the open line can be taken back.

namespace Ristux.Lib
open List

structure LineQueue (α : Type) where
  parts : List (List α)
  line : List α
  deriving DecidableEq

namespace LineQueue
variable {α : Type}

def empty : LineQueue α := ⟨[], []⟩

/-- A letter of the open line. -/
def add (q : LineQueue α) (a : α) : LineQueue α := { q with line := q.line ++ [a] }

/-- Take back the last letter of the open line. -/
def erase (q : LineQueue α) : LineQueue α := { q with line := q.line.dropLast }

/-- End the open line by the letter `a`. -/
def close (q : LineQueue α) (a : α) : LineQueue α := ⟨q.parts ++ [q.line ++ [a]], []⟩

/-- End the open line without a letter. One end mark after another adds nothing. -/
def finish [DecidableEq α] (q : LineQueue α) : LineQueue α :=
  if q.line = [] ∧ q.parts.getLast? = some [] then q else ⟨q.parts ++ [q.line], []⟩

/-- The parts that are left when the first `n` letters of the first one are read. -/
def dropParts (n : ℕ) : List (List α) → List (List α)
  | [] => []
  | part :: parts => if part.drop n = [] then parts else part.drop n :: parts

/-- What one complete part adds to the stream of letters and end marks. -/
def marked : List α → List (Option α)
  | [] => [none]
  | part => part.map some

/-- The stream of letters and end marks that is still to be read. -/
def items (q : LineQueue α) : List (Option α) := q.parts.flatMap marked ++ q.line.map some

/-- A read of at most `n` letters: what it returns, what of the stream it reports, and the queue
after it. By lines it is the front of the first part, and it waits only if no part is complete.
Otherwise it is some letters in their order, never across an end mark. -/
inductive Read (byLine : Prop) (n : ℕ) (q : LineQueue α) :
    Option (List α) → List (Option α) → LineQueue α → Prop
  | wait (h : byLine → q.parts = []) : Read byLine n q none [] q
  | zero (h : n = 0) : Read byLine n q (some []) [] q
  | part (hl : byLine) (hn : n ≠ 0) (part : List α) (parts : List (List α))
      (h : q.parts = part :: parts) :
      Read byLine n q (some (part.take n)) (marked (part.take n)) ⟨dropParts n q.parts, q.line⟩
  | early (out rest : List α) (h : q.parts = []) (hout : out ≠ [])
      (hline : q.line = out ++ rest) :
      Read byLine n q (some out) (out.map some) ⟨[], rest⟩
  | front (hl : ¬byLine) (out : List α) (q' : LineQueue α)
      (h : q.items = out.map some ++ q'.items) :
      Read byLine n q (some out) (out.map some) q'

theorem marked_of_ne_nil {part : List α} (h : part ≠ []) : marked part = part.map some := by
  obtain ⟨a, l, rfl⟩ := exists_cons_of_ne_nil h
  rfl

@[simp] theorem items_add (q : LineQueue α) (a : α) : (q.add a).items = q.items ++ [some a] := by
  simp [items, add]

@[simp] theorem items_close (q : LineQueue α) (a : α) : (q.close a).items = q.items ++ [some a] := by
  have hne : q.line ++ [a] ≠ [] := by simp
  simp [items, close, marked_of_ne_nil hne]

theorem items_erase [DecidableEq α] (q : LineQueue α) :
    q.erase.items = if q.line = [] then q.items else q.items.dropLast := by
  unfold items erase
  by_cases h : q.line = []
  · simp [h]
  · rw [if_neg h, dropLast_append_of_ne_nil (by simpa using h), map_dropLast]

theorem items_finish [DecidableEq α] (q : LineQueue α) : q.finish.items =
      if q.line = [] ∧ q.parts.getLast? ≠ some [] then q.items ++ [none] else q.items := by
  unfold finish
  by_cases hl : q.line = []
  · by_cases hp : q.parts.getLast? = some []
    · rw [if_pos ⟨hl, hp⟩, if_neg fun h => h.2 hp]
    · rw [if_neg fun h => hp h.2, if_pos ⟨hl, hp⟩]
      simp [items, hl, marked]
  · rw [if_neg fun h => hl h.1, if_neg fun h => hl h.1]
    obtain ⟨a, l, hal⟩ := exists_cons_of_ne_nil hl
    simp [items, hal, marked]

variable {n : ℕ}

theorem flatMap_dropParts (hn : n ≠ 0) (part : List α) (parts : List (List α)) :
    (part :: parts).flatMap marked = marked (part.take n) ++ (dropParts n (part :: parts)).flatMap
    marked := by
  by_cases hpart : part = []
  · subst hpart
    simp [dropParts]
  have htake : part.take n ≠ [] := by simp [hn, hpart]
  rw [flatMap_cons, marked_of_ne_nil hpart, marked_of_ne_nil htake]
  by_cases hdrop : part.drop n = []
  · have hall : part.take n = part := by simpa [hdrop] using take_append_drop n part
    rw [dropParts, if_pos hdrop, hall]
  · rw [dropParts, if_neg hdrop, flatMap_cons, marked_of_ne_nil hdrop, ← append_assoc,
      ← map_append, take_append_drop]

variable {reported : List (Option α)} {out : Option (List α)} {q q' : LineQueue α} {byLine : Prop}

variable (h : Read byLine n q out reported q')
include h

/-- A read takes what it reports from the front of the stream. -/
theorem Read.items_eq : q.items = reported ++ q'.items := by
  cases h with
  | wait | zero => rfl
  | part hl hn part parts h =>
    unfold items
    rw [h, flatMap_dropParts hn, append_assoc]
  | early out rest h hout hline => simp [items, h, hline]
  | front hl out q' h => exact h

/-- The letters among what a read reports are those that it returns. -/
theorem Read.letters : reported.reduceOption = out.getD [] := by
  have hsome : ∀ l : List α, (l.map some).reduceOption = l := fun l => by
    simp [reduceOption, filterMap_map]
  cases h with
  | wait | zero => rfl
  | part hl hn part parts h =>
    by_cases hnil : part.take n = []
    · rw [hnil]
      rfl
    · rw [marked_of_ne_nil hnil, hsome]
      rfl
  | early out rest h hout hline => exact hsome out
  | front hl out q' h => exact hsome out

theorem Read.letters_isPrefix : out.getD [] <+: q.items.reduceOption := by
  rw [h.items_eq, ← h.letters, reduceOption, filterMap_append]
  exact prefix_append _ _

/-- By lines, a complete part is read, whatever comes after it. -/
theorem Read.eq_front (hl : byLine) (hn : n ≠ 0)
    (part : List α) (parts : List (List α)) (hparts : q.parts = part :: parts) :
    out = some (part.take n) := by
  cases h with
  | wait h => simp [h hl] at hparts
  | zero h => exact absurd h hn
  | part _ _ part' parts' h =>
    obtain ⟨rfl, rfl⟩ := cons.inj (h.symm.trans hparts)
    rfl
  | early out rest h => simp [h] at hparts
  | front hl' => exact absurd hl hl'

end LineQueue

end Ristux.Lib
