import Mathlib.Data.UInt
import Mathlib.Tactic.Ring

-- A field is read only if it lies inside the list, and is written in place. Numbers are stored
-- with their lowest byte first.

namespace Ristux.Lib
open List

section Lists
variable {α : Type}

/-- `n` entries from position `offset` on, if the list has them. -/
def field (l : List α) (offset n : ℕ) : Option (List α) :=
  if offset + n ≤ l.length then some ((l.drop offset).take n) else none

/-- Write the entries `xs` from position `offset` on. -/
def splice (l : List α) (offset : ℕ) (xs : List α) : List α :=
  l.take offset ++ xs ++ l.drop (offset + xs.length)

variable {l xs : List α} {offset : ℕ}

theorem length_splice (h : offset + xs.length ≤ l.length) : (splice l offset xs).length =
    l.length := by
  simp only [splice, length_append, length_take, length_drop]
  omega

theorem getElem?_splice (h : offset + xs.length ≤ l.length) (i : ℕ) : (splice l offset xs)[i]? =
      if offset ≤ i ∧ i < offset + xs.length then xs[i - offset]? else l[i]? := by
  have htake : (l.take offset).length = offset := by simp; omega
  unfold splice
  rcases Nat.lt_or_ge i offset with hi | hi
  · rw [if_neg (by omega), append_assoc, getElem?_append_left (by omega), getElem?_take_of_lt hi]
  rcases Nat.lt_or_ge i (offset + xs.length) with hi' | hi'
  · rw [if_pos ⟨hi, hi'⟩, append_assoc, getElem?_append_right (by omega), htake,
      getElem?_append_left (by omega)]
  rw [if_neg (by omega), getElem?_append_right (by simp; omega), getElem?_drop]
  congr 1
  simp
  omega

variable {i n p q m : ℕ}

section
variable (h : offset + xs.length ≤ l.length)
include h

theorem getElem?_splice_of_lt (hi : i < xs.length) : (splice l offset xs)[offset + i]? = xs[i]? := by
  rw [getElem?_splice h, if_pos (by omega), Nat.add_sub_cancel_left]

theorem getElem?_splice_of_outside
    (hi : i < offset ∨ offset + xs.length ≤ i) : (splice l offset xs)[i]? = l[i]? := by
  rw [getElem?_splice h, if_neg (by omega)]

omit h in
theorem length_of_field (h : field l offset n = some xs) : xs.length = n ∧ offset + n ≤ l.length := by
  unfold field at h
  split at h
  · next hle =>
    cases h
    exact ⟨by simp; omega, hle⟩
  · cases h

end

end Lists

/-- The `n` lowest bytes of a number. -/
def leBytes : ℕ → ℕ → List UInt8
  | 0, _ => []
  | n + 1, v => UInt8.ofNat v :: leBytes n (v / 256)

def leNat : List UInt8 → ℕ
  | [] => 0
  | b :: bs => b.toNat + 256 * leNat bs

@[simp] theorem length_leBytes (n v : ℕ) : (leBytes n v).length = n := by
  induction n generalizing v with
  | zero => rfl
  | succ n ih => simp [leBytes, ih]

theorem leNat_leBytes (n v : ℕ) : leNat (leBytes n v) = v % 256 ^ n := by
  induction n generalizing v with
  | zero => simp [leBytes, leNat, Nat.mod_one]
  | succ n ih =>
    have hpow : 256 ^ (n + 1) = 256 * 256 ^ n := pow_succ' _ _
    rw [leBytes, leNat, ih, UInt8.toNat_ofNat', hpow, Nat.mod_mul]

theorem leNat_lt (bs : List UInt8) : leNat bs < 256 ^ bs.length := by
  induction bs with
  | nil => simp [leNat]
  | cons b bs ih =>
    have := b.toNat_lt
    rw [leNat, length_cons, pow_succ']
    omega

end Ristux.Lib
