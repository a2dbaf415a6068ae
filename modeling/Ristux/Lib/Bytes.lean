import Mathlib.Data.Nat.Bits
import Mathlib.Data.List.GetD

-- A buffer is read as a function of its index; the code that owns it knows its length.

namespace Ristux.Lib
open List UInt8

abbrev Buf := ℕ → UInt8

namespace Buf

def zero : Buf := fun _ => 0

/-- The buffer that starts with `xs` and is zero after it. -/
def ofList (xs : List UInt8) : Buf := fun i => xs.getD i 0

def u16At (b : Buf) (o : ℕ) : ℕ := (b o).toNat + 256 * (b (o + 1)).toNat

def u32At (b : Buf) (o : ℕ) : ℕ :=
  (b o).toNat + 256 * (b (o + 1)).toNat + 65536 * (b (o + 2)).toNat + 16777216 * (b (o + 3)).toNat

def setByte (b : Buf) (o : ℕ) (v : UInt8) : Buf := fun i => if i = o then v else b i

def setU16 (b : Buf) (o v : ℕ) : Buf := fun i =>
  if i = o then ofNat v else if i = o + 1 then ofNat (v / 256) else b i

def setU32 (b : Buf) (o v : ℕ) : Buf := fun i =>
  if i = o then ofNat v
  else if i = o + 1 then ofNat (v / 256)
  else if i = o + 2 then ofNat (v / 65536)
  else if i = o + 3 then ofNat (v / 16777216)
  else b i

/-- `buf[o..o + xs.len()].copy_from_slice(xs)`. -/
def blit (b : Buf) (o : ℕ) (xs : List UInt8) : Buf := fun i =>
  if o ≤ i ∧ i < o + xs.length then xs.getD (i - o) 0 else b i

/-- `buf[o..o + n]`. -/
def slice (b : Buf) (o n : ℕ) : List UInt8 := (List.range n).map fun i => b (o + i)

/-- Consecutive 32-bit words from word index `k` on. -/
def storeU32s (b : Buf) (k : ℕ) : List ℕ → Buf
  | [] => b
  | v :: vs => storeU32s (setU32 b (4 * k) v) (k + 1) vs

theorem u16At_lt (b : Buf) (o : ℕ) : u16At b o < 65536 := by
  have h0 := (b o).toNat_lt
  have h1 := (b (o + 1)).toNat_lt
  simp only [u16At]
  omega

theorem u32At_lt (b : Buf) (o : ℕ) : u32At b o < 4294967296 := by
  have h0 := (b o).toNat_lt
  have h1 := (b (o + 1)).toNat_lt
  have h2 := (b (o + 2)).toNat_lt
  have h3 := (b (o + 3)).toNat_lt
  simp only [u32At]
  omega

variable {b c : Buf} {o n v k : ℕ} {xs : List UInt8}

theorem u16At_congr (h : ∀ i, o ≤ i → i < o + 2 → b i = c i) : u16At b o = u16At c o := by
  simp only [u16At, h o (by omega) (by omega), h (o + 1) (by omega) (by omega)]

theorem u32At_congr (h : ∀ i, o ≤ i → i < o + 4 → b i = c i) : u32At b o = u32At c o := by
  simp only [u32At, h o (by omega) (by omega), h (o + 1) (by omega) (by omega),
    h (o + 2) (by omega) (by omega), h (o + 3) (by omega) (by omega)]

theorem slice_congr (h : ∀ i, o ≤ i → i < o + n → b i = c i) : slice b o n = slice c o n := by
  apply map_congr_left
  intro i hi
  have := mem_range.1 hi
  exact h (o + i) (by omega) (by omega)

@[simp] theorem zero_apply (i : ℕ) : zero i = 0 := rfl

@[simp] theorem u32At_zero (o : ℕ) : u32At zero o = 0 := rfl

@[simp] theorem slice_length (b : Buf) (o n : ℕ) : (slice b o n).length = n := by simp [slice]

@[simp] theorem setByte_same (b : Buf) (o : ℕ) (v : UInt8) : setByte b o v o = v := by
  simp [setByte]

variable {i : ℕ}

theorem setByte_apply_out {v : UInt8} (h : i ≠ o) : setByte b o v i = b i := if_neg h

theorem setU16_apply_out (h : i < o ∨ o + 2 ≤ i) : setU16 b o v i = b i := by
  simp only [setU16, if_neg (show i ≠ o by omega), if_neg (show i ≠ o + 1 by omega)]

theorem setU32_apply_out (h : i < o ∨ o + 4 ≤ i) : setU32 b o v i = b i := by
  simp only [setU32, if_neg (show i ≠ o by omega), if_neg (show i ≠ o + 1 by omega),
    if_neg (show i ≠ o + 2 by omega), if_neg (show i ≠ o + 3 by omega)]

theorem blit_apply_out (h : i < o ∨ o + xs.length ≤ i) : blit b o xs i = b i := if_neg (by omega)

theorem blit_apply_in (h : i < xs.length) : blit b o xs (o + i) = xs.get ⟨i, h⟩ := by
  rw [blit, if_pos (by omega), Nat.add_sub_cancel_left, getD_eq_getElem _ _ h, get_eq_getElem]

theorem u16At_setU16 (b : Buf) (o v : ℕ) : u16At (setU16 b o v) o = v % 65536 := by
  simp only [u16At, setU16, if_true, if_neg (show o + 1 ≠ o by omega), toNat_ofNat']
  omega

theorem u32At_setU32 (b : Buf) (o v : ℕ) : u32At (setU32 b o v) o = v % 4294967296 := by
  simp only [u32At, setU32, if_true, if_neg (show o + 1 ≠ o by omega),
    if_neg (show o + 2 ≠ o by omega), if_neg (show o + 3 ≠ o by omega),
    if_neg (show o + 2 ≠ o + 1 by omega), if_neg (show o + 3 ≠ o + 1 by omega),
    if_neg (show o + 3 ≠ o + 2 by omega), toNat_ofNat']
  omega

section Disjoint
variable {b : Buf} {o p v : ℕ}

theorem u16At_setU16_ne (h : o + 2 ≤ p ∨ p + 2 ≤ o) : u16At (setU16 b p v) o = u16At b o :=
  u16At_congr fun _ _ _ => setU16_apply_out (by omega)

theorem u16At_setU32_ne (h : o + 2 ≤ p ∨ p + 4 ≤ o) : u16At (setU32 b p v) o = u16At b o :=
  u16At_congr fun _ _ _ => setU32_apply_out (by omega)

theorem u32At_setU16_ne (h : o + 4 ≤ p ∨ p + 2 ≤ o) : u32At (setU16 b p v) o = u32At b o :=
  u32At_congr fun _ _ _ => setU16_apply_out (by omega)

theorem u32At_setU32_ne (h : o + 4 ≤ p ∨ p + 4 ≤ o) : u32At (setU32 b p v) o = u32At b o :=
  u32At_congr fun _ _ _ => setU32_apply_out (by omega)

end Disjoint

theorem slice_blit (b : Buf) (o : ℕ) (xs : List UInt8) : slice (blit b o xs) o xs.length = xs := by
  apply ext_getElem (by simp)
  intro i h₁ h₂
  simp only [slice, getElem_map, getElem_range]
  exact blit_apply_in h₂

theorem slice_take (b : Buf) (o : ℕ) (h : m ≤ n) : (slice b o n).take m = slice b o m := by
  simp [slice, ← map_take, take_range, h]

theorem slice_getD (b : Buf) (h : i < n) : (slice b o n).getD i 0 = b (o + i) := by
  simp [slice, getD_eq_getElem?_getD, h]

variable {vs : List ℕ}

theorem storeU32s_apply_out (h : i < 4 * k ∨ 4 * (k + vs.length) ≤ i) : storeU32s b k vs i = b i := by
  induction vs generalizing b k with
  | nil => rfl
  | cons v vs ih =>
    simp only [length_cons] at h
    rw [storeU32s, ih (by omega), setU32_apply_out (by omega)]

theorem u32At_storeU32s (hi : i < vs.length) : u32At (storeU32s b k vs) (4 * (k + i))
    = vs.get ⟨i, hi⟩ % 4294967296 := by
  induction vs generalizing b k i with
  | nil => simp at hi
  | cons v vs ih =>
    rw [storeU32s]
    cases i with
    | zero =>
      rw [u32At_congr (c := setU32 b (4 * k) v), Nat.add_zero, u32At_setU32]
      · rfl
      · intro j _ _
        exact storeU32s_apply_out (by omega)
    | succ i =>
      simp only [length_cons] at hi
      rw [show k + (i + 1) = k + 1 + i by omega, ih (by omega)]
      rfl

theorem u16At_storeU32s_ne (h : o + 2 ≤ 4 * k ∨ 4 * (k + vs.length) ≤ o) :
    u16At (storeU32s b k vs) o = u16At b o :=
  u16At_congr fun _ _ _ => storeU32s_apply_out (by omega)

theorem u32At_storeU32s_ne (h : o + 4 ≤ 4 * k ∨ 4 * (k + vs.length) ≤ o) :
    u32At (storeU32s b k vs) o = u32At b o :=
  u32At_congr fun _ _ _ => storeU32s_apply_out (by omega)

/-- A block of words read back: the stored words, then the zeros of the fresh buffer. -/
theorem u32At_storeU32s_zero (h : ∀ v ∈ vs, v < 4294967296) (i : ℕ) : u32At (storeU32s zero 0 vs)
    (4 * i) = vs.getD i 0 := by
  by_cases hi : i < vs.length
  · have hv := u32At_storeU32s (b := zero) (k := 0) hi
    rw [Nat.zero_add] at hv
    rw [hv, getD_eq_getElem _ _ hi, get_eq_getElem]
    exact Nat.mod_eq_of_lt (h _ (getElem_mem hi))
  · rw [u32At_congr fun j hj _ => storeU32s_apply_out (by omega), u32At_zero,
      getD_eq_default _ _ (by omega)]

end Buf
end Ristux.Lib
