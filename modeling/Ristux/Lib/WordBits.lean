import Mathlib.Logic.Function.Basic
import Mathlib.Data.Nat.Basic

-- A set of numbers kept as the bits of words, and the search for the first number that is not in
-- it.

namespace Ristux.Lib
open Nat BitVec Function

variable {w : ℕ}

structure WordBits (w : ℕ) where
  word : ℕ → BitVec w

namespace WordBits

def bit (m : WordBits w) (i : ℕ) : Bool := (m.word (i / w)).getLsbD (i % w)

def mask (w i : ℕ) : BitVec w := 1#w <<< (i % w)

def set (m : WordBits w) (i : ℕ) : WordBits w :=
  ⟨update m.word (i / w) (m.word (i / w) ||| mask w i)⟩

def clear (m : WordBits w) (i : ℕ) : WordBits w :=
  ⟨update m.word (i / w) (m.word (i / w) &&& ~~~mask w i)⟩

def full (w : ℕ) : WordBits w := ⟨fun _ => allOnes w⟩

/-- The first clear bit of the `n` words from `start` on. -/
def firstClear (m : WordBits w) : ℕ → ℕ → Option ℕ
  | _, 0 => none
  | start, n + 1 =>
    if m.word start = allOnes w then firstClear m (start + 1) n
    else some (start * w + (~~~m.word start).ctz.toNat)

variable {m : WordBits w} {i j : ℕ}

theorem getLsbD_mask (hw : 0 < w) (hj : j < w) : (mask w i).getLsbD j = decide (j = i % w) := by
  rw [mask, getLsbD_shiftLeft, getLsbD_one]
  grind

theorem bit_set (hw : 0 < w) : (m.set i).bit j = (decide (j = i) || m.bit j) := by
  have hj := mod_lt j hw
  simp only [bit, set, update_apply]
  by_cases hdiv : j / w = i / w
  · rw [if_pos hdiv, getLsbD_or, getLsbD_mask hw hj, Bool.or_comm, hdiv]
    congr 1
    exact decide_eq_decide.2 ⟨ext_div_mod hdiv, fun h => by rw [h]⟩
  · rw [if_neg hdiv, decide_eq_false (fun h => hdiv (by rw [h])), Bool.false_or]

theorem bit_clear (hw : 0 < w) : (m.clear i).bit j = (!decide (j = i) && m.bit j) := by
  have hj := mod_lt j hw
  simp only [bit, clear, update_apply]
  by_cases hdiv : j / w = i / w
  · rw [if_pos hdiv, getLsbD_and, getLsbD_not, getLsbD_mask hw hj, Bool.and_comm,
      hdiv, decide_eq_true hj, Bool.true_and]
    congr 2
    exact decide_eq_decide.2 ⟨ext_div_mod hdiv, fun h => by rw [h]⟩
  · rw [if_neg hdiv, decide_eq_false (fun h => hdiv (by rw [h])), Bool.not_false, Bool.true_and]

theorem bit_full (hw : 0 < w) : (full w).bit i = true := by
  rw [bit, full, getLsbD_allOnes, decide_eq_true (mod_lt i hw)]

/-- The word a number is in. -/
theorem bit_mul_add (hj : j < w) : m.bit (k * w + j) = (m.word k).getLsbD j := by
  have hw : 0 < w := zero_lt_of_lt hj
  rw [bit, Nat.mul_comm, mul_add_div hw, div_eq_of_lt hj, mul_add_mod,
    mod_eq_of_lt hj, Nat.add_zero]

theorem not_ne_zero_iff : ~~~x ≠ 0#w ↔ x ≠ BitVec.allOnes w := by
  rw [Ne, ← not_allOnes, BitVec.not_inj]

theorem bit_of_full (h : m.word k = allOnes w) (h₁ : k * w ≤ i)
    (h₂ : i < (k + 1) * w) : m.bit i = true := by
  obtain ⟨j, rfl⟩ := Nat.exists_eq_add_of_le h₁
  rw [Nat.add_mul, Nat.one_mul] at h₂
  have hj : j < w := by omega
  rw [bit_mul_add hj, h, getLsbD_allOnes, decide_eq_true hj]

variable {start n : ℕ}

theorem firstClear_none (h : m.firstClear start n = none) : ∀ i, start * w ≤ i →
    i < (start + n) * w → m.bit i = true := by
  induction n generalizing start with
  | zero => intro i h₁ h₂; rw [Nat.add_zero] at h₂; omega
  | succ n ih =>
    rw [firstClear] at h
    split_ifs at h with hall
    intro i h₁ h₂
    by_cases hi : i < (start + 1) * w
    · exact bit_of_full hall h₁ hi
    · refine ih h i (Nat.le_of_not_lt hi) ?_
      rwa [Nat.add_assoc, Nat.add_comm 1 n]

theorem firstClear_some (h : m.firstClear start n = some i) : m.bit i = false ∧
    i < (start + n) * w := by
  induction n generalizing start with
  | zero => cases h
  | succ n ih =>
    rw [firstClear] at h
    split_ifs at h with hall
    · obtain ⟨hbit, hlt⟩ := ih h
      rw [Nat.add_assoc, Nat.add_comm 1 n] at hlt
      exact ⟨hbit, hlt⟩
    cases h
    have hne : ~~~m.word start ≠ 0#w := not_ne_zero_iff.2 hall
    have htrue := getLsbD_true_ctz_of_ne_zero hne
    have hlt : (~~~m.word start).ctz.toNat < w := lt_of_getLsbD htrue
    rw [getLsbD_not, decide_eq_true hlt, Bool.true_and, Bool.not_eq_true'] at htrue
    refine ⟨by rw [bit_mul_add hlt, htrue], ?_⟩
    calc start * w + (~~~m.word start).ctz.toNat < start * w + w := by omega
      _ = (start + 1) * w := by rw [Nat.add_mul, Nat.one_mul]
      _ ≤ (start + (n + 1)) * w := mul_le_mul_right _ (by omega)

/-- Every number below the first that is not in the set. -/
theorem bit_of_lt_firstClear (h : m.firstClear start n = some i) : ∀ j, start * w ≤ j → j < i →
    m.bit j = true := by
  induction n generalizing start with
  | zero => cases h
  | succ n ih =>
    rw [firstClear] at h
    intro j h₁ h₂
    split_ifs at h with hall
    · by_cases hj : j < (start + 1) * w
      · exact bit_of_full hall h₁ hj
      · exact ih h j (Nat.le_of_not_lt hj) h₂
    cases h
    obtain ⟨k, rfl⟩ := Nat.exists_eq_add_of_le h₁
    have hfalse := getLsbD_false_of_lt_ctz (Nat.lt_of_add_lt_add_left h₂)
    have hk : k < w := by
      have := getLsbD_true_ctz_of_ne_zero (not_ne_zero_iff.2 hall)
      have := lt_of_getLsbD this
      omega
    rw [getLsbD_not, decide_eq_true hk, Bool.true_and, Bool.not_eq_false'] at hfalse
    rw [bit_mul_add hk, hfalse]

end WordBits

end Ristux.Lib
