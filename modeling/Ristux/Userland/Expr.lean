import Ristux.Lib.Proc
import Ristux.Userland.Basic

-- The integers of `userland/src/bin/expr.rs`. A value is its text, and `None` is the error `()`.
-- With `checks` an overflow of `-` or `+` is a panic, as in a debug build; a release build wraps.

namespace Ristux.Userland.Expr
open List
open Ristux.Linker (Bytes)
open Ristux.Lib (Res)

def i64Min : ℤ := -2 ^ 63

/-- The result of a checked operation. -/
def checked (value : ℤ) : Option ℤ := if i64Min ≤ value ∧ value < 2 ^ 63 then some value else none

def minus : UInt8 := 0x2d

def parseLoop : ℤ → Bytes → Option ℤ
  | value, [] => some value
  | value, byte :: bytes =>
    if !isAsciiDigit byte then none
    else (checked (value * 10)).bind fun value =>
      (checked (value + (byte - 0x30).toNat)).bind fun value => parseLoop value bytes

def parseI64 : Bytes → Option ℤ
  | [] => none
  | byte :: bytes =>
    let rest := if byte = minus ∨ byte = 0x2b then bytes else byte :: bytes
    if rest.isEmpty then none
    else (parseLoop 0 rest).map fun value => if byte = minus then -value else value

variable (checks : Bool)

/-- The digits from the last one on; each is `b'0' + (value % 10) as u8`. -/
def pushLoop (value : ℤ) : Res Unit Bytes :=
  let digit := (value.tmod 10 % 2 ^ 8).toNat
  if checks ∧ 2 ^ 8 ≤ 0x30 + digit then .error .panic
  else if value.tdiv 10 = 0 then .ok [digitByte digit]
  else (pushLoop (value.tdiv 10)).map (· ++ [digitByte digit])
termination_by value.natAbs
decreasing_by
  rw [Int.natAbs_tdiv]
  refine Nat.div_lt_self (Nat.pos_of_ne_zero fun h => ?_) (by decide)
  simp_all

def pushI64 (value : ℤ) : Res Unit Bytes :=
  if 0 ≤ value then pushLoop checks value
  else if value ≠ i64Min then (pushLoop checks (-value)).map (minus :: ·)
  else if checks then .error .panic
  else (pushLoop checks value).map (minus :: ·)

/-- `checked_add` and so on; `checked_rem` refuses the least integer and -1. -/
def operation (op : Bytes) (left right : ℤ) : Option ℤ :=
  if op = text "+" then checked (left + right)
  else if op = text "-" then checked (left - right)
  else if op = text "*" then checked (left * right)
  else if op = text "/" ∧ right ≠ 0 then checked (left.tdiv right)
  else if op = text "%" ∧ right ≠ 0 then
    if left = i64Min ∧ right = -1 then none else checked (left.tmod right)
  else none

def arithmetic (left op right : Bytes) : Res Unit Bytes :=
  match parseI64 left, parseI64 right with
  | some l, some r =>
    match operation op l r with
    | some value => pushI64 checks value
    | none => .err ()
  | _, _ => .err ()

/-- The decimal representation. -/
def decimal (value : ℤ) : Bytes :=
  if 0 ≤ value then digits 10 value.natAbs else minus :: digits 10 value.natAbs

/-- The mathematical result of an operator, if there is one that fits. -/
def result (op : Bytes) (l r : ℤ) : Option ℤ :=
  (if op = text "+" then some (l + r)
  else if op = text "-" then some (l - r)
  else if op = text "*" then some (l * r)
  else if op = text "/" ∧ r ≠ 0 then some (l.tdiv r)
  else if op = text "%" ∧ r ≠ 0 then some (l.tmod r)
  else none).bind checked

/-- The text of the result, which can be read again, or an error when there is none. -/
def Exact (op : Bytes) (l r : ℤ) : Prop :=
  match result op l r with
  | some v => arithmetic checks (decimal l) op (decimal r) = .ok (decimal v) ∧
    parseI64 (decimal v) = some v
  | none => arithmetic checks (decimal l) op (decimal r) = .err ()

theorem parseLoop_append (value : ℤ) (xs ys : Bytes) : parseLoop value (xs ++ ys) =
    (parseLoop value xs).bind fun value => parseLoop value ys := by
  induction xs generalizing value with
  | nil => rfl
  | cons x xs ih =>
    rw [cons_append, parseLoop, parseLoop]
    split
    · rfl
    · simp only [Option.bind_assoc, ih]

theorem parseLoop_digits (n : ℕ) : parseLoop 0 (digits 10 n) = checked n := by
  have hlast : ∀ (v : ℤ) (d : ℕ), 0 ≤ v → d < 10 →
      (checked v).bind (parseLoop · [digitByte d]) = checked (v * 10 + d) := by
    intro v d hv hd
    simp only [parseLoop, isAsciiDigit_digitByte hd, toNat_digitByte_sub hd, checked, i64Min]
    grind
  induction n using digits.induct 10 with
  | case1 n h =>
    have hn : n % 10 = n := Nat.mod_eq_of_lt (by omega)
    rw [digits, if_pos h, hn]
    simpa [show checked 0 = some 0 from rfl] using hlast 0 n le_rfl (by omega)
  | case2 n h ih =>
    rw [digits, if_neg h, parseLoop_append, ih, hlast _ _ (by omega) (Nat.mod_lt _ (by decide))]
    congr 1
    omega

theorem parseI64_decimal (hlo : i64Min ≤ value) (hhi : value < 2 ^ 63) :
    parseI64 (decimal value) = if value = i64Min then none else some value := by
  obtain ⟨byte, bytes, hd⟩ := exists_cons_of_ne_nil (digits_ne_nil 10 value.natAbs)
  have hread := parseLoop_digits value.natAbs
  unfold checked at hread
  rw [hd] at hread
  rw [decimal, hd]
  split
  · have hdigit : isAsciiDigit byte = true :=
      isAsciiDigit_of_mem_digits (by decide) (by decide) byte (hd ▸ mem_cons_self)
    have hsign : byte ≠ minus ∧ byte ≠ 0x2b := by
      constructor <;> rintro rfl <;> exact absurd hdigit (by decide)
    rw [if_pos (by omega)] at hread
    simp only [parseI64, hsign, or_self, if_false, isEmpty_cons, hread]
    grind [i64Min]
  · simp only [parseI64, true_or, if_true, isEmpty_cons, hread]
    grind [i64Min]

theorem pushLoop_natCast (n : ℕ) : pushLoop checks n = .ok (digits 10 n) := by
  have hstep : ∀ n : ℕ, pushLoop checks n = if n / 10 = 0 then .ok [digitByte (n % 10)]
      else (pushLoop checks ↑(n / 10)).map (· ++ [digitByte (n % 10)]) := by
    intro n
    have hmod : (n : ℤ).tmod 10 = ↑(n % 10) := (Int.ofNat_tmod n 10).symm
    have hdiv : (n : ℤ).tdiv 10 = ↑(n / 10) := (Int.ofNat_tdiv n 10).symm
    have hdigit : ((n : ℤ).tmod 10 % 2 ^ 8).toNat = n % 10 := by omega
    rw [pushLoop, hdigit, if_neg (by omega), hdiv]
    norm_cast
  induction n using digits.induct 10 with
  | case1 n h => rw [hstep, digits, if_pos h, if_pos (by omega)]
  | case2 n h ih =>
    rw [hstep, digits, if_neg h, if_neg (by omega), ih]
    rfl

theorem pushI64_eq_decimal (hlo : i64Min ≤ value) :
    pushI64 checks value = .ok (decimal value) ↔ value ≠ i64Min := by
  unfold pushI64 decimal
  split
  · next h =>
    obtain ⟨n, rfl⟩ := Int.eq_ofNat_of_zero_le h
    refine iff_of_true (pushLoop_natCast checks n) ?_
    unfold i64Min
    omega
  next h =>
  split
  · next hmin =>
    have hneg : -value = value.natAbs := by omega
    rw [hneg, pushLoop_natCast]
    exact iff_of_true rfl hmin
  next hmin =>
  obtain rfl := not_not.1 hmin
  refine iff_of_false (fun heq => ?_) hmin
  cases checks with
  | true => cases heq
  | false =>
    -- The last byte is `b'0'` and -8 as a byte, not the digit 8.
    rw [pushLoop, digits, if_neg (by decide), if_neg (by decide), if_neg (by decide)] at heq
    cases hrest : pushLoop false (i64Min.tdiv 10) with
    | error e =>
      rw [hrest] at heq
      cases heq
    | ok ds =>
      rw [hrest] at heq
      have hlast := (append_inj' (cons.inj (Except.ok.inj heq)).2 rfl).2
      exact absurd hlast (by decide)

theorem operation_eq (op : Bytes) (hl : l ≠ i64Min) : operation op l r = result op l r := by
  unfold operation result
  split_ifs <;> first | rfl | simp_all

theorem arithmetic_decimal (op : Bytes) (l r : Int64) :
    arithmetic checks (decimal l.toInt) op (decimal r.toInt) =
      if l.toInt = i64Min ∨ r.toInt = i64Min then .err () else
        match result op l.toInt r.toInt with
        | some v => pushI64 checks v
        | none => .err () := by
  rw [arithmetic, parseI64_decimal l.le_toInt l.toInt_lt, parseI64_decimal r.le_toInt r.toInt_lt]
  by_cases hl : l.toInt = i64Min
  · simp [hl]
  by_cases hr : r.toInt = i64Min
  · simp [hl, hr]
  rw [if_neg hl, if_neg hr, if_neg (not_or.2 ⟨hl, hr⟩)]
  dsimp only
  rw [operation_eq op hl]

/-- Results are exact unless the least integer is an operand or the result. -/
theorem arithmetic_exact_iff (op : Bytes) (l r : Int64) : Exact checks op l.toInt r.toInt ↔
    ∀ v, result op l.toInt r.toInt = some v → i64Min ∉ [l.toInt, r.toInt, v] := by
  rw [Exact, arithmetic_decimal]
  cases hv : result op l.toInt r.toInt with
  | none => simp
  | some v =>
    have hfits : i64Min ≤ v ∧ v < 2 ^ 63 := by
      obtain ⟨w, -, hw⟩ := Option.bind_eq_some_iff.1 hv
      unfold checked at hw
      split_ifs at hw with hfits
      exact Option.some.inj hw ▸ hfits
    have hpush := pushI64_eq_decimal checks hfits.1
    have hread := parseI64_decimal hfits.1 hfits.2
    by_cases hmin : l.toInt = i64Min ∨ r.toInt = i64Min
    · rw [if_pos hmin]
      simp only [reduceCtorEq, false_and, false_iff]
      intro h
      have := h v rfl
      grind
    · rw [if_neg hmin]
      dsimp only
      rw [hpush, hread]
      grind

/-- The least integer cannot be read. -/
theorem least_not_read : ¬ Exact false (text "+") i64Min 1 := by
  intro h
  have hnone : parseI64 (decimal i64Min) = none := parseI64_decimal le_rfl (by decide)
  have hresult : result (text "+") i64Min 1 = some (i64Min + 1) := by decide
  rw [Exact, hresult, arithmetic, hnone] at h
  cases h.1

end Ristux.Userland.Expr
