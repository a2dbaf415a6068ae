import Mathlib.Data.BitVec

-- The signal numbers the kernel knows, their default actions, and sets of signals as the 64-bit
-- words `pending_signals` and `signal_mask`.

namespace Ristux.Kernel
open List BitVec

def defaultHandler : ℕ := 0
def ignoreHandler : ℕ := 1

inductive Signal where
  | hup | term | kill | stop | int | ill | trap | abrt | bus | fpe | segv | usr1 | usr2 | pipe
  | alarm | tstp | ttin | ttou | cont | urg | xcpu | xfsz | vtalrm | prof | winch | io | pwr
  | sys | quit | child
  deriving DecidableEq, Repr

variable (s : Signal)

namespace Signal

def fromNumber : ℕ → Option Signal
  | 1 => some .hup
  | 2 => some .int
  | 3 => some .quit
  | 4 => some .ill
  | 5 => some .trap
  | 6 => some .abrt
  | 7 => some .bus
  | 8 => some .fpe
  | 9 => some .kill
  | 10 => some .usr1
  | 11 => some .segv
  | 12 => some .usr2
  | 13 => some .pipe
  | 14 => some .alarm
  | 15 => some .term
  | 17 => some .child
  | 18 => some .cont
  | 19 => some .stop
  | 20 => some .tstp
  | 21 => some .ttin
  | 22 => some .ttou
  | 23 => some .urg
  | 24 => some .xcpu
  | 25 => some .xfsz
  | 26 => some .vtalrm
  | 27 => some .prof
  | 28 => some .winch
  | 29 => some .io
  | 30 => some .pwr
  | 31 => some .sys
  | _ => none

def number : Signal → ℕ
  | .hup => 1
  | .int => 2
  | .quit => 3
  | .ill => 4
  | .trap => 5
  | .abrt => 6
  | .bus => 7
  | .fpe => 8
  | .kill => 9
  | .usr1 => 10
  | .segv => 11
  | .usr2 => 12
  | .pipe => 13
  | .alarm => 14
  | .term => 15
  | .child => 17
  | .cont => 18
  | .stop => 19
  | .tstp => 20
  | .ttin => 21
  | .ttou => 22
  | .urg => 23
  | .xcpu => 24
  | .xfsz => 25
  | .vtalrm => 26
  | .prof => 27
  | .winch => 28
  | .io => 29
  | .pwr => 30
  | .sys => 31

def defaultStatus : ℤ := 128 + s.number

def hasStopDefault : Signal → Bool
  | .stop | .tstp | .ttin | .ttou => true
  | _ => false

def hasIgnoreDefault : Signal → Bool
  | .child | .cont | .urg | .winch => true
  | _ => false

theorem fromNumber_number : fromNumber s.number = some s := by cases s <;> rfl

theorem number_lt : s.number < 32 := by cases s <;> decide

theorem number_injective {s s' : Signal} (h : s.number = s'.number) : s = s' :=
  Option.some_injective _ (by rw [← fromNumber_number, h, fromNumber_number])

end Signal

def signalFromLegacyStatus (status : ℤ) : Option ℕ :=
  if status < 128 then none
  else if 1 ≤ status - 128 ∧ status - 128 < 64 then some (status - 128).toNat
  else none

@[simp] theorem signalFromLegacyStatus_defaultStatus :
    signalFromLegacyStatus s.defaultStatus = some s.number := by
  cases s <;> rfl

def isUncatchableSignal (signal : ℕ) : Bool :=
  signal = Signal.kill.number || signal = Signal.stop.number

def signalBit (signal : ℕ) : BitVec 64 := 1#64 <<< signal

theorem getLsbD_signalBit (s i : ℕ) : (signalBit s).getLsbD i = decide (i = s ∧ i < 64) := by
  simp only [signalBit, getLsbD_shiftLeft, getLsbD_one]
  by_cases hs : i = s
  · simp [hs]
  · have h : s ≤ i → ¬i - s = 0 := by omega
    simpa [hs] using fun _ => h

def sanitizedSignalMask (mask : BitVec 64) : BitVec 64 :=
  mask &&& ~~~(signalBit Signal.kill.number ||| signalBit Signal.stop.number)

variable (bits : BitVec 64)

/-- `u64::trailing_zeros`. -/
def trailingZeros : ℕ :=
  ((range 64).find? fun i => bits.getLsbD i).getD 64

theorem getLsbD_and_not_signalBit (s i : ℕ) :
    (bits &&& ~~~signalBit s).getLsbD i = (bits.getLsbD i && decide (i ≠ s)) := by
  rw [getLsbD_and, getLsbD_not, getLsbD_signalBit]
  by_cases hi : i < 64
  · by_cases hs : i = s <;> simp [hi, hs]
  · simp [getLsbD_of_ge bits i (by omega)]

theorem getLsbD_or_signalBit {s : ℕ} (i : ℕ) (hs : s < 64) :
    (bits ||| signalBit s).getLsbD i = (bits.getLsbD i || decide (i = s)) := by
  rw [getLsbD_or, getLsbD_signalBit]
  by_cases h : i = s
  · simp [h, hs]
  · simp [h]

theorem getLsbD_sanitizedSignalMask (mask : BitVec 64) (i : ℕ) :
    (sanitizedSignalMask mask).getLsbD i = (mask.getLsbD i && !isUncatchableSignal i) := by
  rw [sanitizedSignalMask, getLsbD_and, getLsbD_not, getLsbD_or,
    getLsbD_signalBit, getLsbD_signalBit]
  by_cases hi : i < 64
  · by_cases hk : i = 9 <;> by_cases hs : i = 19 <;>
      simp [hi, hk, hs, isUncatchableSignal, Signal.number]
  · simp [getLsbD_of_ge mask i (by omega)]

/-- The lowest set bit of a word that is not zero. -/
theorem trailingZeros_spec {bits : BitVec 64} (h : bits ≠ 0) :
    bits.getLsbD (trailingZeros bits) ∧
      ∀ i < trailingZeros bits, bits.getLsbD i = false := by
  have hbit := getLsbD_true_ctz_of_ne_zero h
  cases hf : (range 64).find? fun i => bits.getLsbD i with
  | none =>
    rw [find?_eq_none] at hf
    exact absurd hbit (hf _ (mem_range.2 (lt_of_getLsbD hbit)))
  | some j =>
    have htz : trailingZeros bits = j := by rw [trailingZeros, hf]; rfl
    rw [find?_range_eq_some] at hf
    rw [htz]
    refine ⟨hf.1, fun l hl => ?_⟩
    simpa using hf.2.2 l hl

end Ristux.Kernel
