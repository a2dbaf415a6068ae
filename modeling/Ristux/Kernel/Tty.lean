import Mathlib.Data.UInt
import Ristux.Kernel.Futex

-- `tty/mod.rs`: what is typed goes into the current line, committed lines and one flag for the
-- end-of-file character. Reads take from one of the three, depending on the mode at that moment.

namespace Ristux.Kernel
open Function

abbrev nccs : ℕ := 32

instance neZeroNccs : NeZero nccs := ⟨by decide⟩

def vIntr : Fin nccs := 0
def vErase : Fin nccs := 2
def vEof : Fin nccs := 4
def vTime : Fin nccs := 5
def vMin : Fin nccs := 6
def vSusp : Fin nccs := 10
def asciiBs : UInt8 := 0x08
def asciiDel : UInt8 := 0x7f
def newline : UInt8 := 0x0a

def iflagIcrnl : UInt32 := 0x100
def oflagOpost : UInt32 := 0x1
def oflagOnlcr : UInt32 := 0x4
def lflagIsig : UInt32 := 0x1
def lflagIcanon : UInt32 := 0x2
def lflagEcho : UInt32 := 0x8
def lflagEchoe : UInt32 := 0x10
def lflagEchok : UInt32 := 0x20
def lflagIexten : UInt32 := 0x8000

inductive TtyMode where
  | canonical
  | raw
  deriving DecidableEq, Repr

structure Termios where
  iflag : UInt32
  oflag : UInt32
  lflag : UInt32
  cc : Fin nccs → UInt8

namespace Termios

def default : Termios where
  iflag := iflagIcrnl
  oflag := oflagOpost ||| oflagOnlcr
  lflag := lflagIsig ||| lflagIcanon ||| lflagEcho ||| lflagEchoe ||| lflagEchok ||| lflagIexten
  cc i :=
    if i = vIntr then 0x03
    else if i = vErase then asciiBs
    else if i = vEof then 0x04
    else if i = vMin then 1
    else if i = vSusp then 0x1a
    else 0

def setMode (t : Termios) : TtyMode → Termios
  | .canonical =>
    { t with
      lflag := t.lflag ||| (lflagIsig ||| lflagIcanon ||| lflagEcho)
      cc := update (update t.cc vMin 1) vTime 0 }
  | .raw =>
    { iflag := t.iflag &&& ~~~iflagIcrnl
      oflag := t.oflag &&& ~~~oflagOpost
      lflag := t.lflag &&& ~~~(lflagIsig ||| lflagIcanon ||| lflagEcho ||| lflagIexten)
      cc := update (update t.cc vMin 1) vTime 0 }

def canonicalEnabled (t : Termios) : Bool := t.lflag &&& lflagIcanon != 0

def signalCharsEnabled (t : Termios) : Bool := t.lflag &&& lflagIsig != 0

def controlChar (t : Termios) (index : Fin nccs) : Option UInt8 :=
  if t.cc index = 0 then none else some (t.cc index)

def isEraseByte (t : Termios) (byte : UInt8) : Bool :=
  t.controlChar vErase == some byte || byte == asciiBs || byte == asciiDel

end Termios

structure Tty where
  termios : Termios
  line : List UInt8
  /-- Lines committed by a newline. -/
  ready : List (List UInt8)
  eof : Bool
  rawFirstByteMs : Option ℕ

variable (t : Tty) (nowMs : ℕ) (timeoutExpired : Bool) (maxLen : ℕ)

namespace Tty

def new : Tty := ⟨Termios.default, [], [], false, none⟩

def setMode (t : Tty) (mode : TtyMode) : Tty := { t with termios := t.termios.setMode mode }

def setTermios (termios : Termios) (nowMs : ℕ) : Tty :=
  { t with
    termios := termios
    rawFirstByteMs :=
      if termios.canonicalEnabled || t.line.isEmpty then none
      else some (t.rawFirstByteMs.getD nowMs) }

def input (byte : UInt8) (nowMs : ℕ) : Option Signal × Tty :=
  if t.termios.signalCharsEnabled && t.termios.controlChar vIntr == some byte then
    (some .int, t)
  else if t.termios.signalCharsEnabled && t.termios.controlChar vSusp == some byte then
    (some .tstp, t)
  else if !t.termios.canonicalEnabled then
    (none, { t with
        line := t.line ++ [byte]
        rawFirstByteMs := if t.line.isEmpty then some nowMs else t.rawFirstByteMs })
  else if t.termios.controlChar vEof == some byte then
    (none, { t with eof := true })
  else if t.termios.isEraseByte byte then
    (none, { t with line := t.line.dropLast })
  else if byte = newline then
    (none, { t with line := [], ready := t.ready ++ [t.line ++ [newline]] })
  else
    (none, { t with line := t.line ++ [byte] })

/-- Whether the time between two bytes has run out in raw mode. -/
def interbyteExpired : Bool :=
  let timeDs := (t.termios.cc vTime).toNat
  timeDs != 0 &&
    match t.rawFirstByteMs with
    | some first => decide (min (first + min (timeDs * 100) u64Max) u64Max ≤ nowMs)
    | none => false

def readRaw :
    Option (List UInt8) × Tty :=
  let min := (t.termios.cc vMin).toNat
  let timeDs := (t.termios.cc vTime).toNat
  if t.line.isEmpty then
    if min == 0 && (timeDs == 0 || timeoutExpired) then (some [], t) else (none, t)
  else if min != 0 && decide (t.line.length < min) && !t.interbyteExpired nowMs then
    (none, t)
  else
    (some (t.line.take maxLen), { t with
        line := t.line.drop maxLen
        rawFirstByteMs := if (t.line.drop maxLen).isEmpty then none else t.rawFirstByteMs })

def readCanonical : Option (List UInt8) × Tty :=
  match t.ready with
  | first :: ready =>
    (some (first.take maxLen), { t with
        ready := if (first.drop maxLen).isEmpty then ready else first.drop maxLen :: ready })
  | [] =>
    if t.eof then (some [], { t with eof := false })
    else
      match t.line.findIdx? (· == newline) with
      | some position =>
        let count := min (position + 1) maxLen
        let line := t.line.take count
        -- The newline itself is dropped.
        (some (if line.getLast? = some newline then line.dropLast else line),
          { t with line := t.line.drop count })
      | none => (none, t)

def readAvailableAt :
    Option (List UInt8) × Tty :=
  if maxLen = 0 then (some [], t)
  else if !t.termios.canonicalEnabled then t.readRaw nowMs timeoutExpired maxLen
  else t.readCanonical maxLen

end Tty

inductive TtyCall where
  | input (byte : UInt8) (nowMs : ℕ)
  | setTermios (termios : Termios) (nowMs : ℕ)
  | setMode (mode : TtyMode)
  | readAvailableAt (nowMs : ℕ) (timeoutExpired : Bool) (maxLen : ℕ)

namespace TtyCall

def exec : TtyCall → Tty
  | .input byte nowMs => (t.input byte nowMs).2
  | .setTermios termios nowMs => t.setTermios termios nowMs
  | .setMode mode => t.setMode mode
  | .readAvailableAt nowMs timeoutExpired maxLen =>
    (t.readAvailableAt nowMs timeoutExpired maxLen).2

/-- What a read returns; `none` for the other calls. -/
def output : TtyCall → Option (List UInt8)
  | .readAvailableAt nowMs timeoutExpired maxLen =>
    (t.readAvailableAt nowMs timeoutExpired maxLen).1
  | _ => none

def run (calls : List TtyCall) : Tty := calls.foldl exec t

/-- The calls with what they return. -/
def trace : Tty → List TtyCall → List (TtyCall × Option (List UInt8))
  | _, [] => []
  | t, c :: calls => (c, c.output t) :: trace (c.exec t) calls

/-- The bytes that the reads of a trace return. -/
def returned (trace : List (TtyCall × Option (List UInt8))) : List UInt8 :=
  trace.flatMap fun entry => entry.2.getD []

end TtyCall

end Ristux.Kernel
