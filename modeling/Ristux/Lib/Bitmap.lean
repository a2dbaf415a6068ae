import Ristux.Lib.Bytes
import Mathlib.Tactic.Ring

-- Bit `i` of a buffer is bit `i % 8` of its byte `i / 8`.

namespace Ristux.Lib.Bitmap
open Buf Nat

def bit (b : Buf) (i : ℕ) : Bool := (b (i / 8)).toNat.testBit (i % 8)

/-- `buf[i / 8] |= 1 << (i % 8)` or `buf[i / 8] &= !(1 << (i % 8))`. -/
def setBit (b : Buf) (i : ℕ) (used : Bool) : Buf :=
  setByte b (i / 8) <|
    if used then UInt8.ofNat ((b (i / 8)).toNat ||| 2 ^ (i % 8))
    else UInt8.ofNat ((b (i / 8)).toNat &&& (255 ^^^ 2 ^ (i % 8)))

theorem testBit_ofNat {n k : ℕ} (hk : k < 8) : (UInt8.ofNat n).toNat.testBit k = n.testBit k := by
  rw [UInt8.toNat_ofNat', testBit_mod_two_pow]
  simp [hk]

theorem bit_setBit (b : Buf) (i j : ℕ) (used : Bool) :
    bit (setBit b i used) j = if j = i then used else bit b j := by
  have hj : j % 8 < 8 := mod_lt _ (by omega)
  by_cases hb : j / 8 = i / 8
  · have hji : j = i ↔ j % 8 = i % 8 := by omega
    have h255 : (255 : ℕ).testBit (j % 8) = true := by
      rw [show (255 : ℕ) = 2 ^ 8 - 1 by norm_num, testBit_two_pow_sub_one]
      simpa using hj
    unfold bit setBit
    rw [hb, setByte_same]
    cases used with
    | true =>
      rw [if_pos rfl, testBit_ofNat hj, testBit_or, testBit_two_pow]
      by_cases h : j = i
      · simp [h]
      · have h' : i % 8 ≠ j % 8 := fun h' => h (hji.2 h'.symm)
        simp [h, h']
    | false =>
      rw [if_neg (by simp), testBit_ofNat hj, testBit_and, testBit_xor, h255, testBit_two_pow]
      by_cases h : j = i
      · simp [h]
      · have h' : i % 8 ≠ j % 8 := fun h' => h (hji.2 h'.symm)
        simp [h, h']
  · have h : j ≠ i := fun h => hb (by rw [h])
    unfold bit setBit
    rw [setByte_apply_out hb, if_neg h]

end Ristux.Lib.Bitmap
