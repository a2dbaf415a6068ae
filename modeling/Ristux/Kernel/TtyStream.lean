import Ristux.Kernel.Tty
import Ristux.Lib.LineQueue

-- The reference is a terminal that keeps what was typed in one queue of lines: the end-of-file
-- character ends the open line, whatever the mode later is, and reads take from the front.

namespace Ristux.Kernel
open Lib List LineQueue TtyCall

/-- What a typed byte means. -/
inductive Key where
  | signal (signal : Signal)
  | letter
  | eof
  | erase
  | newline
  deriving DecidableEq

def Termios.key (t : Termios) (byte : UInt8) : Key :=
  if t.signalCharsEnabled && t.controlChar vIntr == some byte then .signal .int
  else if t.signalCharsEnabled && t.controlChar vSusp == some byte then .signal .tstp
  else if !t.canonicalEnabled then .letter
  else if t.controlChar vEof == some byte then .eof
  else if t.isEraseByte byte then .erase
  else if byte = Kernel.newline then .newline
  else .letter

/-- A terminal with one queue, the stream of everything typed and not erased (`none` for an
end-of-file character at the start of a line), and the stream of what was reported to readers. -/
structure Console where
  termios : Termios
  queue : LineQueue UInt8
  typed : List (Option UInt8)
  reported : List (Option UInt8)

namespace Console

def new : Console := ⟨Termios.default, .empty, [], []⟩

def input (c : Console) (byte : UInt8) : Console :=
  match c.termios.key byte with
  | .signal _ => c
  | .letter => { c with queue := c.queue.add byte, typed := c.typed ++ [some byte] }
  | .eof =>
    { c with
      queue := c.queue.finish
      typed :=
        if c.queue.line = [] ∧ c.queue.parts.getLast? ≠ some [] then c.typed ++ [none]
        else c.typed }
  | .erase =>
    { c with
      queue := c.queue.erase
      typed := if c.queue.line = [] then c.typed else c.typed.dropLast }
  | .newline => { c with queue := c.queue.close byte, typed := c.typed ++ [some byte] }

/-- One call on the reference, which may return `output`. -/
def Step (c : Console) : TtyCall → Option (List UInt8) → Console → Prop
  | .input byte _, output, c' => output = none ∧ c' = c.input byte
  | .setTermios termios _, output, c' => output = none ∧ c' = { c with termios := termios }
  | .setMode mode, output, c' =>
    output = none ∧ c' = { c with termios := c.termios.setMode mode }
  | .readAvailableAt _ _ maxLen, output, c' =>
    ∃ front queue, Read (c.termios.canonicalEnabled = true) maxLen c.queue output front
        queue ∧
      c' = { c with queue := queue, reported := c.reported ++ front }

/-- The reference may return what the trace says and be in the state `c'` after it. -/
def Run : Console → List (TtyCall × Option (List UInt8)) → Console → Prop
  | c, [], c' => c' = c
  | c, (call, output) :: trace, c' => ∃ d, c.Step call output d ∧ d.Run trace c'

/-- Everything typed was reported or is in the queue, in that order. -/
def InOrder (c : Console) : Prop := c.typed = c.reported ++ c.queue.items

variable {c c' : Console} {output : Option (List UInt8)}

theorem InOrder.input (h : c.InOrder) (byte : UInt8) : (c.input byte).InOrder := by
  unfold InOrder at h ⊢
  unfold Console.input
  cases c.termios.key byte with
  | signal s => exact h
  | letter | newline => simp [h]
  | eof =>
    dsimp only
    rw [items_finish]
    split <;> simp [h]
  | erase =>
    dsimp only
    rw [items_erase]
    split
    · exact h
    next hline =>
    have hne : c.queue.items ≠ [] := by simp [items, hline]
    rw [h, dropLast_append_of_ne_nil hne]

theorem InOrder.step (h : c.InOrder) (hs : c.Step call output c') : c'.InOrder := by
  cases call with
  | input byte nowMs => exact hs.2 ▸ h.input byte
  | setTermios termios nowMs => exact hs.2 ▸ h
  | setMode mode => exact hs.2 ▸ h
  | readAvailableAt nowMs timeoutExpired maxLen =>
    obtain ⟨front, queue, hread, rfl⟩ := hs
    unfold InOrder at h ⊢
    rw [h, hread.items_eq, append_assoc]

theorem InOrder.run {trace : List (TtyCall × Option (List UInt8))} :
    ∀ {c : Console}, c.InOrder → c.Run trace c' → c'.InOrder := by
  induction trace with
  | nil =>
    rintro c h rfl
    exact h
  | cons entry trace ih =>
    rintro c h ⟨d, hs, hrun⟩
    exact ih (h.step hs) hrun

/-- A call reports the bytes that it returns. -/
theorem Step.letters (hs : c.Step call output c') :
    c'.reported.reduceOption = c.reported.reduceOption ++ output.getD [] := by
  cases call with
  | input byte nowMs =>
    obtain ⟨rfl, rfl⟩ := hs
    unfold Console.input
    split <;> simp
  | setTermios termios nowMs | setMode mode =>
    obtain ⟨rfl, rfl⟩ := hs
    simp
  | readAvailableAt nowMs timeoutExpired maxLen =>
    obtain ⟨front, queue, hread, rfl⟩ := hs
    simp [List.reduceOption, ← hread.letters]

theorem Run.letters {trace : List (TtyCall × Option (List UInt8))} : ∀ {c : Console}, c.Run trace c' →
      c'.reported.reduceOption = c.reported.reduceOption ++ returned trace := by
  induction trace with
  | nil =>
    rintro c rfl
    simp [returned]
  | cons entry trace ih =>
    rintro c ⟨d, hs, hrun⟩
    rw [ih hrun, hs.letters]
    simp [returned]

end Console

namespace Tty
variable {t : Tty}

/-- The terminal's input as one queue: the flag for the end of file counts as the last part. -/
def queue (t : Tty) : LineQueue UInt8 := ⟨t.ready ++ if t.eof then [[]] else [], t.line⟩

/-- A committed line is never empty. -/
def Filled (t : Tty) : Prop := [] ∉ t.ready

/-- The terminal refines this state of the reference. -/
structure Refines (t : Tty) (c : Console) : Prop where
  filled : t.Filled
  termios : c.termios = t.termios
  queue : c.queue = t.queue

theorem refines_new : new.Refines Console.new := ⟨by simp [Filled, new], rfl, rfl⟩

/-- What a typed byte does, by its meaning. -/
theorem input_eq (t : Tty) (byte : UInt8) (nowMs : ℕ) :
    (t.input byte nowMs).2.termios = t.termios ∧ match t.termios.key byte with
      | .signal _ => (t.input byte nowMs).2 = t
      | .letter =>
        (t.input byte nowMs).2.line = t.line ++ [byte] ∧
          (t.input byte nowMs).2.ready = t.ready ∧ (t.input byte nowMs).2.eof = t.eof
      | .eof => (t.input byte nowMs).2 = { t with eof := true }
      | .erase => (t.input byte nowMs).2 = { t with line := t.line.dropLast }
      | .newline =>
        (t.input byte nowMs).2 = { t with line := [], ready := t.ready ++ [t.line ++ [byte]] } := by
  unfold Tty.input Termios.key
  repeat' split
  all_goals simp_all

theorem getLast?_queue (h : t.Filled) : t.queue.parts.getLast? = some [] ↔ t.eof = true := by
  unfold queue
  cases heof : t.eof with
  | true => simp
  | false =>
    simp only [Bool.false_eq_true, if_false, append_nil, iff_false]
    exact fun hlast => h (mem_of_getLast? hlast)

end Tty

/-- The terminal is in a state in which the call acts as on the reference: an end-of-file
character at the start of a line, a new line only after the end of file was read, a raw read
only when the committed lines and the end of file were read, and a line read only when the open
line holds no newline typed in raw mode. -/
def TtyCall.Orderly (t : Tty) : TtyCall → Prop
  | .input byte _ =>
    (t.termios.key byte = .eof → t.line = []) ∧ (t.termios.key byte = .newline → t.eof = false)
  | .setTermios _ _ => True
  | .setMode _ => True
  | .readAvailableAt _ _ maxLen =>
    (t.termios.canonicalEnabled = true → t.ready = [] → t.eof = false →
        newline ∉ t.line.take maxLen) ∧
      (t.termios.canonicalEnabled = false → maxLen ≠ 0 → t.line ≠ [] → t.ready = [] ∧ t.eof = false)

instance (t : Tty) : (call : TtyCall) → Decidable (call.Orderly t)
  | .input _ _ => inferInstanceAs (Decidable (_ ∧ _))
  | .setTermios _ _ => inferInstanceAs (Decidable True)
  | .setMode _ => inferInstanceAs (Decidable True)
  | .readAvailableAt _ _ _ => inferInstanceAs (Decidable (_ ∧ _))

/-- Each call of the sequence is made in such a state. -/
def TtyCall.AllOrderly : Tty → List TtyCall → Prop
  | _, [] => True
  | t, c :: calls => c.Orderly t ∧ AllOrderly (c.exec t) calls

instance instDecidableAllOrderly :
    (t : Tty) → (calls : List TtyCall) → Decidable (AllOrderly t calls)
  | _, [] => inferInstanceAs (Decidable True)
  | t, c :: calls =>
    have := instDecidableAllOrderly (c.exec t) calls
    inferInstanceAs (Decidable (_ ∧ _))

namespace Tty
variable {t : Tty}

section
variable (h : t.Refines c)
include h

theorem Refines.input (ho : (TtyCall.input byte nowMs).Orderly t) :
    (t.input byte nowMs).2.Refines (c.input byte) := by
  obtain ⟨htermios, heq⟩ := t.input_eq byte nowMs
  have hfill := h.filled
  have hckey : c.termios.key byte = t.termios.key byte := by rw [h.termios]
  unfold Console.input
  cases hkey : t.termios.key byte with
  | signal s =>
    rw [hkey] at heq hckey
    simp only [hckey, heq]
    exact h
  | letter =>
    rw [hkey] at heq hckey
    obtain ⟨hline, hready, heof⟩ := heq
    simp only [hckey]
    refine ⟨by rwa [Filled, hready], h.termios.trans htermios.symm, ?_⟩
    simp [h.queue, Tty.queue, add, hline, hready, heof]
  | eof =>
    rw [hkey] at heq hckey
    simp only [hckey, heq]
    refine ⟨hfill, h.termios, ?_⟩
    have hline := ho.1 hkey
    simp only [h.queue, finish]
    by_cases heof : t.eof = true
    · rw [if_pos ⟨hline, (getLast?_queue hfill).2 heof⟩]
      simp [Tty.queue, heof]
    · rw [if_neg fun hh => heof ((getLast?_queue hfill).1 hh.2)]
      simp [Tty.queue, heof, hline]
  | erase =>
    rw [hkey] at heq hckey
    simp only [hckey, heq]
    exact ⟨hfill, h.termios, by simp [h.queue, Tty.queue, erase]⟩
  | newline =>
    rw [hkey] at heq hckey
    simp only [hckey, heq]
    refine ⟨by simpa [Filled] using hfill, h.termios, ?_⟩
    simp [h.queue, Tty.queue, ho.2 hkey, close]

theorem Refines.readRaw (nowMs : ℕ) (timeoutExpired : Bool)
    (hraw : t.termios.canonicalEnabled = false) (ho : t.line ≠ [] → t.ready = [] ∧ t.eof = false) :
    ∃ front queue, Read (c.termios.canonicalEnabled = true) maxLen c.queue
        (t.readRaw nowMs timeoutExpired maxLen).1 front queue ∧
      (t.readRaw nowMs timeoutExpired maxLen).2.Refines
        { c with queue := queue, reported := c.reported ++ front } := by
  have hnot : ¬c.termios.canonicalEnabled = true := by simp [h.termios, hraw]
  unfold Tty.readRaw
  dsimp only
  split
  · split
    · exact ⟨_, _, .front hnot [] c.queue rfl, h.filled, h.termios, h.queue⟩
    · exact ⟨_, _, .wait fun hc => absurd hc hnot, h.filled, h.termios, h.queue⟩
  next hline =>
  obtain ⟨hready, heof⟩ := ho (by simpa using hline)
  have hqueue : c.queue = ⟨[], t.line⟩ := by simp [h.queue, Tty.queue, hready, heof]
  split
  · exact ⟨_, _, .wait fun hc => absurd hc hnot, h.filled, h.termios, h.queue⟩
  refine ⟨_, _, .front hnot (t.line.take maxLen) ⟨[], t.line.drop maxLen⟩ ?_, h.filled,
    h.termios, ?_⟩
  · simp [hqueue, items]
  · simp [Tty.queue, hready, heof]

theorem Refines.readCanonical (hmax : maxLen ≠ 0) (hcanon : t.termios.canonicalEnabled = true)
    (ho : t.ready = [] → t.eof = false → newline ∉ t.line.take maxLen) :
    ∃ front queue, Read (c.termios.canonicalEnabled = true) maxLen c.queue
        (t.readCanonical maxLen).1 front queue ∧ (t.readCanonical maxLen).2.Refines
        { c with queue := queue, reported := c.reported ++ front } := by
  have hline : c.termios.canonicalEnabled = true := by rw [h.termios, hcanon]
  have hfill := h.filled
  unfold Tty.readCanonical
  split
  · next first ready hready =>
    have hparts : c.queue.parts = first :: (ready ++ if t.eof then [[]] else []) := by
      simp [h.queue, Tty.queue, hready]
    refine ⟨_, _, .part hline hmax first _ hparts, ?_, h.termios, ?_⟩
    · have hmem : [] ∉ ready := fun hin => hfill (hready ▸ mem_cons_of_mem _ hin)
      split
      · exact hmem
      next hne =>
      intro hin
      rcases mem_cons.1 hin with hnil | hin
      · exact hne (by rw [← hnil]; rfl)
      · exact hmem hin
    · dsimp only [Tty.queue]
      rw [hparts, dropParts, h.queue]
      by_cases hdrop : first.drop maxLen = [] <;> simp [hdrop, Tty.queue]
  next hready =>
  split
  · next heof =>
    have hparts : c.queue.parts = [[]] := by simp [h.queue, Tty.queue, hready, heof]
    have hread := Read.part hline hmax [] [] hparts
    rw [take_nil] at hread
    refine ⟨_, _, hread, by simpa [Filled] using hfill, h.termios, ?_⟩
    rw [hparts]
    simp [Tty.queue, hready, dropParts, h.queue]
  next heof =>
  have hqueue : c.queue = ⟨[], t.line⟩ := by simp [h.queue, Tty.queue, hready, heof]
  split
  · next position hposition =>
    have hno := ho hready (by simpa using heof)
    have hlen := (findIdx?_eq_some_iff_getElem.1 hposition).1
    have hcount : min (position + 1) maxLen = maxLen := by
      refine min_eq_right (not_lt.1 fun hlt => hno ?_)
      obtain ⟨hp, hat, -⟩ := findIdx?_eq_some_iff_getElem.1 hposition
      exact mem_take_iff_getElem.2 ⟨position, by omega, by simpa using hat⟩
    have hlast : (t.line.take maxLen).getLast? ≠ some newline :=
      fun hl => hno (mem_of_getLast? hl)
    have hout : t.line.take maxLen ≠ [] := by
      simp only [ne_eq, take_eq_nil_iff, not_or]
      exact ⟨hmax, ne_nil_of_length_pos (by omega)⟩
    dsimp only
    rw [hcount, if_neg hlast]
    refine ⟨_, _, .early _ (t.line.drop maxLen) (by rw [hqueue]) hout (by simp [hqueue]),
      hfill, h.termios, ?_⟩
    simp [Tty.queue, hready, heof]
  · exact ⟨_, _, .wait fun _ => by rw [hqueue], hfill, h.termios, h.queue⟩

theorem Refines.readAvailableAt
    (ho : (TtyCall.readAvailableAt nowMs timeoutExpired maxLen).Orderly t) :
    ∃ front queue, Read (c.termios.canonicalEnabled = true) maxLen c.queue
        (t.readAvailableAt nowMs timeoutExpired maxLen).1 front queue ∧
      (t.readAvailableAt nowMs timeoutExpired maxLen).2.Refines
        { c with queue := queue, reported := c.reported ++ front } := by
  unfold Tty.readAvailableAt
  by_cases hmax : maxLen = 0
  · rw [if_pos hmax]
    exact ⟨[], c.queue, .zero hmax, h.filled, h.termios, h.queue⟩
  rw [if_neg hmax]
  cases hcanon : t.termios.canonicalEnabled with
  | false => exact h.readRaw nowMs timeoutExpired hcanon (ho.2 hcanon hmax)
  | true => exact h.readCanonical hmax hcanon (ho.1 hcanon)

/-- One call in an orderly state is a call on the reference. -/
theorem Refines.step (ho : call.Orderly t) :
    ∃ d, c.Step call (call.output t) d ∧ (call.exec t).Refines d := by
  cases call with
  | input byte nowMs => exact ⟨_, ⟨rfl, rfl⟩, h.input ho⟩
  | setTermios termios nowMs => exact ⟨_, ⟨rfl, rfl⟩, h.filled, rfl, h.queue⟩
  | setMode mode => exact ⟨_, ⟨rfl, rfl⟩, h.filled, by rw [h.termios]; rfl, h.queue⟩
  | readAvailableAt nowMs timeoutExpired maxLen =>
    obtain ⟨front, queue, hread, href⟩ := h.readAvailableAt ho
    exact ⟨_, ⟨front, queue, hread, rfl⟩, href⟩

end

theorem Refines.run : ∀ {t : Tty} {c : Console}, t.Refines c → AllOrderly t calls →
      ∃ d, c.Run (trace t calls) d ∧ (run t calls).Refines d := by
  induction calls with
  | nil => exact fun h _ => ⟨_, rfl, h⟩
  | cons call calls ih =>
    rintro t c h ⟨ho, hos⟩
    obtain ⟨d, hs, hd⟩ := h.step ho
    obtain ⟨e, hrun, he⟩ := ih hd hos
    exact ⟨e, ⟨d, hs, hrun⟩, he⟩

end Tty

/-- The terminal returns what the reference may return: the bytes that were returned and what is
still in the terminal are what was typed, in its order, with each end of file in its place. -/
def TtyCall.DeliveredInOrder (calls : List TtyCall) : Prop :=
  ∃ c, Console.new.Run (trace Tty.new calls) c ∧
    c.typed = c.reported ++ (run Tty.new calls).queue.items ∧
    c.reported.reduceOption = returned (trace Tty.new calls)

theorem orderly_input_in_order (calls : List TtyCall) (h : AllOrderly Tty.new calls) :
    DeliveredInOrder calls := by
  obtain ⟨c, hrun, href⟩ := Tty.refines_new.run h
  have horder : c.InOrder := Console.InOrder.run (c := Console.new) rfl hrun
  refine ⟨c, hrun, ?_, hrun.letters⟩
  rw [← href.queue]
  exact horder

/-- Bytes typed at time 0. -/
def typeBytes (bytes : List UInt8) : List TtyCall := bytes.map fun byte => .input byte 0

theorem orderly_input_in_order_lines : DeliveredInOrder
      (typeBytes [97, newline, 4] ++ [.readAvailableAt 0 false 8, .readAvailableAt 0 false 8]) :=
  orderly_input_in_order _ (by decide +kernel)

theorem Console.Run.input {c d : Console}
    {trace : List (TtyCall × Option (List UInt8))} {output : Option (List UInt8)}
    (h : c.Run ((.input byte nowMs, output) :: trace) d) : (c.input byte).Run trace d := by
  obtain ⟨e, ⟨-, rfl⟩, h⟩ := h
  exact h

theorem Console.Run.setMode {c d : Console}
    {trace : List (TtyCall × Option (List UInt8))} {output : Option (List UInt8)}
    (h : c.Run ((.setMode mode, output) :: trace) d) :
    Console.Run { c with termios := c.termios.setMode mode } trace d := by
  obtain ⟨e, ⟨-, rfl⟩, h⟩ := h
  exact h

/-- The reader gets the end of file before the partial line `a` that was typed before it. The
end of file is reported after the line that was typed after it. Bytes typed in raw mode overtake
a committed line. A newline typed in raw mode is lost when the line is read in canonical mode. -/
theorem input_out_of_order : ¬DeliveredInOrder (typeBytes [97, 4] ++ [.readAvailableAt 0 false 8]) ∧
    ¬DeliveredInOrder (typeBytes [4, 97, newline] ++ [.readAvailableAt 0 false 8]) ∧
    ¬DeliveredInOrder
      (typeBytes [97, newline] ++ [.setMode .raw, .input 98 0, .readAvailableAt 0 false 8]) ∧
    ¬DeliveredInOrder (.setMode .raw :: typeBytes [97, newline] ++
        [.setMode .canonical, .readAvailableAt 0 false 8]) := by
  refine ⟨?_, ?_, ?_, ?_⟩
  · rintro ⟨c, hrun, -⟩
    obtain ⟨d, ⟨front, queue, hread, -⟩, -⟩ := hrun.input.input
    have hfront := hread.eq_front (by decide +kernel) (by decide) [97] [] (by decide +kernel)
    revert hfront
    decide +kernel
  · rintro ⟨c, hrun, -⟩
    obtain ⟨d, ⟨front, queue, hread, -⟩, -⟩ := hrun.input.input.input
    have hfront := hread.eq_front (by decide +kernel) (by decide) [] [[97, newline]]
      (by decide +kernel)
    revert hfront
    decide +kernel
  · rintro ⟨c, hrun, -⟩
    obtain ⟨d, ⟨front, queue, hread, -⟩, -⟩ := hrun.input.input.setMode.input
    have hletters := hread.letters_isPrefix
    revert hletters
    decide +kernel
  rintro ⟨c, hrun, htyped, -⟩
  obtain ⟨d, ⟨front, queue, hread, rfl⟩, rfl⟩ := hrun.setMode.input.input.setMode
  have hfront : [some 97, some newline] = front := by
    refine Eq.trans ?_ (htyped.trans (append_nil _))
    dsimp only
    decide +kernel
  have hletters := hread.letters
  rw [← hfront] at hletters
  revert hletters
  decide +kernel

end Ristux.Kernel
