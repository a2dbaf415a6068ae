import Mathlib.Data.Nat.ModEq
import Mathlib.Tactic.Ring

-- Numbers of `w` bits that count on past their largest value. `advance a k` is the number `k`
-- after `a`.

namespace Ristux.Lib.Serial
open Nat BitVec

variable {w : ℕ} {a : BitVec w} {j k n : ℕ}

def advance (a : BitVec w) (k : ℕ) : BitVec w := a + BitVec.ofNat w k

/-- `x` is `y` or comes after it. -/
def atOrAfter (x y : BitVec w) : Prop := 0 ≤ (x - y).toInt

instance : DecidableRel (atOrAfter (w := w)) := fun x y =>
  inferInstanceAs (Decidable (0 ≤ (x - y).toInt))

theorem toNat_advance (a : BitVec w) (k : ℕ) : (advance a k).toNat = (a.toNat + k) % 2 ^ w := by
  rw [advance, toNat_add, toNat_ofNat, add_mod_mod]

@[simp] theorem advance_zero (a : BitVec w) : advance a 0 = a := by simp [advance]

theorem advance_advance (a : BitVec w) (j k : ℕ) : advance (advance a j) k = advance a (j + k) := by
  apply eq_of_toNat_eq
  rw [toNat_advance, toNat_advance, toNat_advance, mod_add_mod, Nat.add_assoc]

theorem advance_injective (hj : j < 2 ^ w) (hk : k < 2 ^ w) (h : advance a j = advance a k) :
    j = k := by
  have hmod := congrArg BitVec.toNat h
  rw [toNat_advance, toNat_advance] at hmod
  have := Nat.ModEq.add_left_cancel' a.toNat hmod
  exact Nat.ModEq.eq_of_lt_of_lt this hj hk

theorem advance_sub (a : BitVec w) (k : ℕ) : advance a k - a = BitVec.ofNat w k := by
  rw [advance, BitVec.add_comm, BitVec.add_sub_cancel]

theorem toNat_advance_sub (hk : k < 2 ^ w) : (advance a k - a).toNat = k := by
  rw [advance_sub, toNat_ofNat, mod_eq_of_lt hk]

/-- Counted from one start, at most half the range on. -/
theorem atOrAfter_advance (hj : 0 < j) (hjn : j ≤ n) (hkn : k ≤ n) (hn : 2 * n ≤ 2 ^ w) :
    atOrAfter (advance a k) (advance a j) ↔ j ≤ k := by
  have hsub : (advance a k - advance a j).toNat = (2 ^ w - j + k) % 2 ^ w := by
    have hcancel : advance a k - advance a j = BitVec.ofNat w k - BitVec.ofNat w j := by
      rw [advance, advance]
      rw [sub_eq_add_neg, sub_eq_add_neg, BitVec.neg_add, BitVec.sub_eq_add_neg]
      rw [BitVec.add_comm a, BitVec.add_assoc, ← BitVec.add_assoc a, ← BitVec.sub_eq_add_neg a,
        BitVec.sub_self, BitVec.zero_add]
    rw [hcancel, toNat_sub, toNat_ofNat, toNat_ofNat, add_mod_mod]
    by_cases hjw : j = 2 ^ w
    · omega
    · rw [mod_eq_of_lt (a := j) (by omega)]
  rw [atOrAfter, toInt_eq_toNat_cond, hsub]
  rcases Nat.lt_or_ge k j with hkj | hkj
  · rw [mod_eq_of_lt (by omega), if_neg (by omega)]
    omega
  have : 2 ^ w - j + k = 2 ^ w + (k - j) := by omega
  rw [this, add_mod_left, mod_eq_of_lt (by omega), if_pos (by omega)]
  omega

theorem le_advance_iff (hk : k ≤ 2 ^ w) : a ≤ advance a k ↔ a.toNat + k < 2 ^ w ∨ k = 2 ^ w := by
  rw [le_def, toNat_advance]
  rcases Nat.lt_or_ge (a.toNat + k) (2 ^ w) with h | h
  · rw [mod_eq_of_lt h]
    omega
  · rw [mod_eq_sub_mod h, mod_eq_of_lt (by omega)]
    omega

/-- The plain comparison of two numbers counted from `a`: right when the count passed zero
before both or before neither, and wrong otherwise. -/
theorem advance_le_iff (hj : j < 2 ^ w) (hk : k < 2 ^ w) :
    ((advance a j ≤ advance a k ↔ j ≤ k) ↔ (a ≤ advance a j ↔ a ≤ advance a k)) := by
  rw [le_advance_iff hj.le, le_advance_iff hk.le, le_def, toNat_advance, toNat_advance]
  have hmod : ∀ i < 2 ^ w, (a.toNat + i) % 2 ^ w =
      if a.toNat + i < 2 ^ w then a.toNat + i else a.toNat + i - 2 ^ w := by
    intro i hi
    split_ifs with h
    · exact mod_eq_of_lt h
    · rw [mod_eq_sub_mod (by omega), mod_eq_of_lt (by omega)]
  rw [hmod j hj, hmod k hk]
  split_ifs <;> omega

end Ristux.Lib.Serial
