import Ristux.Lib.Trim
import Ristux.Linker.Elf

-- Byte texts, the ASCII classes of `core`, and the checked arithmetic on `usize` behind the
-- tools' number fields. `trim_ascii` of `ar.rs` and `sh.rs` and `trim` of `patch.rs` are one
-- function.

namespace Ristux.Userland
open List Nat Option
open Ristux.Linker (Bytes)

/-- A byte string literal. -/
def text (s : String) : Bytes := s.toList.map fun c => UInt8.ofNat c.toNat

def slash : UInt8 := 0x2f
def newline : UInt8 := 0x0a
def space : UInt8 := 0x20

variable (b : UInt8)

/-- `u8::is_ascii_whitespace`. -/
def isAsciiWhitespace : Bool :=
  b == 0x20 || b == 0x09 || b == 0x0a || b == 0x0c || b == 0x0d

/-- `u8::is_ascii_digit`. -/
def isAsciiDigit : Bool := 0x30 ≤ b && b ≤ 0x39

def trimAscii (bytes : Bytes) : Bytes := Lib.trimBy isAsciiWhitespace bytes

def usizeMax : ℕ := 2 ^ 64 - 1

/-- `value.checked_mul(base)?.checked_add(digit)?`. -/
def pushDigit (base value digit : ℕ) : Option ℕ :=
  if value * base ≤ usizeMax ∧ value * base + digit ≤ usizeMax then some (value * base + digit)
  else none

def digitByte (d : ℕ) : UInt8 := UInt8.ofNat (0x30 + d)

/-- The digits of a number, most significant first; the loops that write them begin at the other
end of a buffer that is long enough. -/
def digits (base value : ℕ) : Bytes :=
  if value / base = 0 ∨ base < 2 then [digitByte (value % base)]
  else digits base (value / base) ++ [digitByte (value % base)]
termination_by value
decreasing_by
  rename_i h
  obtain ⟨hne, hbase⟩ := not_or.1 h
  have hpos : value ≠ 0 := by
    rintro rfl
    simp at hne
  exact div_lt_self (pos_of_ne_zero hpos) (by omega)

/-- The loop that reads digits: any other byte ends it with `None`, and so does an overflow. -/
def readDigits (base : ℕ) : ℕ → Bytes → Option ℕ
  | value, [] => some value
  | value, byte :: bytes =>
    if isAsciiDigit byte ∧ (byte - 0x30).toNat < base then
      (pushDigit base value (byte - 0x30).toNat).bind fun value => readDigits base value bytes
    else none

section
theorem toNat_digitByte (h : d < 10) : (digitByte d).toNat = 0x30 + d := by
  simp only [digitByte, UInt8.toNat_ofNat']
  omega

theorem isAsciiDigit_iff : isAsciiDigit b = true ↔ 0x30 ≤ b.toNat ∧ b.toNat ≤ 0x39 := by
  simp [isAsciiDigit, UInt8.le_iff_toNat_le]

theorem isAsciiDigit_digitByte (h : d < 10) : isAsciiDigit (digitByte d) = true := by
  rw [isAsciiDigit_iff, toNat_digitByte h]
  omega

theorem toNat_digitByte_sub (h : d < 10) : (digitByte d - 0x30).toNat = d := by
  have hle : (0x30 : UInt8) ≤ digitByte d := by
    rw [UInt8.le_iff_toNat_le, toNat_digitByte h]
    exact le_add_right _ _
  rw [UInt8.toNat_sub_of_le _ _ hle, toNat_digitByte h]
  exact Nat.add_sub_cancel_left _ _

theorem isAsciiDigit_of_mem_digits (hbase : 2 ≤ base) (hten : base ≤ 10) :
    ∀ b ∈ digits base value, isAsciiDigit b = true := by
  have hmod : ∀ v, v % base < 10 := by
    intro v
    have := mod_lt v (show 0 < base by omega)
    omega
  induction value using digits.induct base with
  | case1 value h =>
    intro b hb
    rw [digits, if_pos h, mem_singleton] at hb
    rw [hb]
    exact isAsciiDigit_digitByte (hmod _)
  | case2 value h ih =>
    intro b hb
    rw [digits, if_neg h, mem_append, mem_singleton] at hb
    rcases hb with hb | rfl
    · exact ih b hb
    · exact isAsciiDigit_digitByte (hmod _)

theorem digits_ne_nil (base value : ℕ) : digits base value ≠ [] := by
  rw [digits]
  split
  · simp
  · simp

theorem readDigits_append (base value : ℕ) (xs ys : Bytes) : readDigits base value (xs ++ ys) =
      (readDigits base value xs).bind fun value => readDigits base value ys := by
  induction xs generalizing value with
  | nil => rfl
  | cons x xs ih =>
    simp only [cons_append, readDigits]
    split
    · rw [bind_assoc]
      congr 1
      funext v
      exact ih v
    · rfl

/-- What is written is read back. -/
theorem readDigits_digits (hbase : 2 ≤ base) (hten : base ≤ 10) (h : value ≤ usizeMax) :
    readDigits base 0 (digits base value) = some value := by
  have hlt : ∀ v, v % base < base := fun v => mod_lt v (by omega)
  have hpush : ∀ v w : ℕ, w * base + v % base ≤ usizeMax →
      readDigits base w [digitByte (v % base)] = some (w * base + v % base) := by
    intro v w hle
    have hd : v % base < 10 := by
      have := hlt v
      omega
    have hmul : w * base ≤ usizeMax := le_of_add_right_le hle
    simp [readDigits, isAsciiDigit_digitByte hd, toNat_digitByte_sub hd, hlt v, pushDigit, hle,
      hmul]
  induction value using digits.induct base with
  | case1 value hstop =>
    have hzero : value / base = 0 := hstop.resolve_right (by omega)
    have hval : value % base = value := by
      have := div_add_mod value base
      rw [hzero] at this
      omega
    have := hpush value 0 (by omega)
    rw [digits, if_pos hstop, this]
    simp [hval]
  | case2 value hstop ih =>
    have hval : value / base * base + value % base = value := div_add_mod' value base
    have hdiv : value / base ≤ usizeMax := (div_le_self _ _).trans h
    rw [digits, if_neg hstop, readDigits_append, ih hdiv, bind_some, hpush _ _ (by omega), hval]

theorem isAsciiDigit_of_readDigits (h : readDigits base value bytes = some result) :
    ∀ b ∈ bytes, isAsciiDigit b = true := by
  induction bytes generalizing value with
  | nil =>
    intro b hb
    cases hb
  | cons b bytes ih =>
    rw [readDigits] at h
    split at h
    · rename_i hdigit
      obtain ⟨v, _, hv⟩ := bind_eq_some_iff.1 h
      exact forall_mem_cons.2 ⟨hdigit.1, ih hv⟩
    · cases h

theorem readDigits_lt (h : readDigits base value bytes = some result) :
    result < (value + 1) * base ^ bytes.length := by
  induction bytes generalizing value with
  | nil =>
    cases h
    simp
  | cons b bytes ih =>
    rw [readDigits] at h
    split at h
    · rename_i hdigit
      obtain ⟨v, hpush, hv⟩ := bind_eq_some_iff.1 h
      have hval : v + 1 ≤ (value + 1) * base := by
        unfold pushDigit at hpush
        split at hpush
        · cases hpush
          rw [add_mul, one_mul]
          omega
        · cases hpush
      calc result < (v + 1) * base ^ bytes.length := ih hv
        _ ≤ (value + 1) * base * base ^ bytes.length := mul_le_mul_right _ hval
        _ = (value + 1) * base ^ (b :: bytes).length := by
          rw [length_cons, pow_succ, mul_assoc, mul_comm base]
    · cases h

theorem isAsciiWhitespace_of_digit {b : UInt8} (h : isAsciiDigit b = true) :
    isAsciiWhitespace b = false := by
  rw [isAsciiDigit_iff] at h
  have hne : ∀ c : UInt8, c.toNat < 0x30 → b ≠ c := by
    rintro c hc rfl
    omega
  simp [isAsciiWhitespace, hne]

/-- A number of `k` digits is below that power of the base. -/
theorem lt_pow_length_digits (hbase : 2 ≤ base) : value < base ^ (digits base value).length := by
  induction value using digits.induct base with
  | case1 value hstop =>
    have hzero : value / base = 0 := hstop.resolve_right (by omega)
    rw [digits, if_pos hstop, length_singleton, pow_one]
    exact (Nat.div_eq_zero_iff.1 hzero).resolve_left (by omega)
  | case2 value hstop ih =>
    rw [digits, if_neg hstop, length_append, length_singleton, pow_succ]
    exact (div_lt_iff_lt_mul (by omega)).1 ih

/-- A number below a power of the base fits a field of that many digits. -/
theorem length_digits_le (hbase : 2 ≤ base) (hk : 0 < k) (h : value < base ^ k) :
    (digits base value).length ≤ k := by
  induction k generalizing value with
  | zero => omega
  | succ k ih =>
    rw [digits]
    split
    · simp
    rename_i hstop
    have hdiv : value / base < base ^ k := by
      rw [div_lt_iff_lt_mul (by omega)]
      rwa [← pow_succ]
    have hkpos : 0 < k := by
      rcases Nat.eq_zero_or_pos k with rfl | hk
      · simp only [pow_zero, lt_one_iff] at hdiv
        exact absurd (.inl hdiv) hstop
      · exact hk
    simpa using ih hkpos hdiv

end

end Ristux.Userland
