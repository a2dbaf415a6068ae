import Ristux.Lib.Blocks
import Ristux.Lib.Linked
import Mathlib.Tactic.Ring

-- `kernel/src/memory/heap.rs`. The free blocks form a linked list that is kept in the blocks
-- themselves: the word at the start of a block is its size and the word after it the address of
-- the next free block.

namespace Ristux.Memory
open Nat Function

open Lib

def headerSize : ℕ := 16
def freeBlockAlign : ℕ := 8

/-- `(value + align - 1) & !(align - 1)`, for an `align` that is a power of two. -/
def alignUp (value align : ℕ) : ℕ := (value + align - 1) / align * align

structure Layout where
  size : ℕ
  align : ℕ
  isPow : ∃ k, align = 2 ^ k

structure Heap where
  head : ℕ
  mem : ℕ → ℕ

variable (fuel : ℕ)

namespace Heap

def sizeOf (h : Heap) (p : ℕ) : ℕ := h.mem p

def nextOf (h : Heap) (p : ℕ) : ℕ := h.mem (p + 8)

def setSize (h : Heap) (p v : ℕ) : Heap := { h with mem := update h.mem p v }

def setNext (h : Heap) (p v : ℕ) : Heap := { h with mem := update h.mem (p + 8) v }

/-- The link that leads to the block after `prev`, which is null at the start of the list. -/
def setLink (h : Heap) (prev v : ℕ) : Heap :=
  if prev = 0 then { h with head := v } else h.setNext prev v

def initFreeList (h : Heap) (start size : ℕ) : Heap :=
  { (h.setSize start size).setNext start 0 with head := start }

/-- Where an allocation would start in a free block: what precedes it can hold a header. -/
def allocStartIn (blockStart align : ℕ) : ℕ :=
  let allocStart := alignUp (blockStart + headerSize) align - headerSize
  if blockStart < allocStart ∧ allocStart - blockStart < headerSize then
    alignUp (blockStart + headerSize * 2) align - headerSize
  else allocStart

/-- Takes `allocSize` bytes at `allocStart` out of the free block `current`. -/
def carve (h : Heap) (prev current allocStart allocSize : ℕ) : ℕ × Heap :=
  let before := allocStart - current
  let remainder := h.sizeOf current - (before + allocSize)
  let usedSize := if headerSize ≤ remainder then allocSize else allocSize + remainder
  let remainderPtr := allocStart + usedSize
  let h :=
    if headerSize ≤ remainder then
      (h.setSize remainderPtr remainder).setNext remainderPtr (h.nextOf current)
    else h
  let h :=
    if headerSize ≤ before then
      let h := h.setSize current before
      if headerSize ≤ remainder then h.setNext current remainderPtr else h
    else if headerSize ≤ remainder then h.setLink prev remainderPtr
    else h.setLink prev (h.nextOf current)
  (allocStart + headerSize, h.setSize allocStart usedSize)

def allocLoop (layout : Layout) : ℕ → Heap → ℕ → ℕ → Option (ℕ × Heap)
  | 0, _, _, _ => none
  | fuel + 1, h, prev, current =>
    if current = 0 then some (0, h)
    else
      let allocSize := alignUp (headerSize + layout.size) freeBlockAlign
      let allocStart := allocStartIn current layout.align
      if allocStart - current + allocSize ≤ h.sizeOf current then
        some (h.carve prev current allocStart allocSize)
      else allocLoop layout fuel h current (h.nextOf current)

def allocFromFreeList (h : Heap) (layout : Layout) : Option (ℕ × Heap) :=
  allocLoop layout fuel h 0 h.head

def insertLoop (block : ℕ) : ℕ → Heap → ℕ → Option Heap
  | 0, _, _ => none
  | fuel + 1, h, current =>
    if h.nextOf current ≠ 0 ∧ h.nextOf current < block then
      insertLoop block fuel h (h.nextOf current)
    else some ((h.setNext block (h.nextOf current)).setNext current block)

def coalesceLoop : ℕ → Heap → ℕ → Option Heap
  | 0, _, _ => none
  | fuel + 1, h, current =>
    if h.nextOf current = 0 then some h
    else
      let next := h.nextOf current
      if current + h.sizeOf current = next then
        let h := h.setSize current (h.sizeOf current + h.sizeOf next)
        coalesceLoop fuel (h.setNext current (h.nextOf next)) current
      else coalesceLoop fuel h next

def coalesceHead (h : Heap) : Option Heap :=
  if h.head = 0 then some h else coalesceLoop fuel h h.head

def deallocToFreeList (h : Heap) (ptr : ℕ) : Option Heap :=
  let block := ptr - headerSize
  let h := (h.setSize block (h.sizeOf block)).setNext block 0
  (if h.head = 0 ∨ block < h.head then some { h.setNext block h.head with head := block }
  else insertLoop block fuel h h.head).bind (coalesceHead fuel)

variable {h : Heap}

theorem mem_setSize : (h.setSize p v).mem x = if x = p then v else h.mem x :=
  update_apply h.mem p v x

theorem mem_setNext : (h.setNext p v).mem x = if x = p + 8 then v else h.mem x :=
  update_apply h.mem (p + 8) v x

@[simp] theorem head_setSize : (h.setSize p v).head = h.head := rfl
@[simp] theorem head_setNext : (h.setNext p v).head = h.head := rfl

end Heap

section
theorem le_alignUp (ha : 0 < a) : x ≤ alignUp x a := by
  have hdiv := div_add_mod (x + a - 1) a
  have hmod := mod_lt (x + a - 1) ha
  rw [alignUp, mul_comm]
  omega

theorem dvd_alignUp : a ∣ alignUp x a := dvd_mul_left a _

theorem alignUp_of_dvd (ha : 0 < a) (hx : a ∣ x) : alignUp x a = x := by
  obtain ⟨k, rfl⟩ := hx
  have : (a * k + a - 1) / a = k := by
    rw [Nat.add_sub_assoc ha, mul_add_div ha, div_eq_of_lt (by omega), Nat.add_zero]
  rw [alignUp, this, mul_comm]

end

/-- Of two powers of two one divides the other. -/
theorem dvd_or_dvd_of_isPow (ha : ∃ k, a = 2 ^ k) : a ∣ 8 ∨ 8 ∣ a := by
  obtain ⟨k, rfl⟩ := ha
  rcases le_total k 3 with hk | hk
  · exact .inl (pow_dvd_pow 2 hk)
  · exact .inr (pow_dvd_pow 2 hk)

/-- Where an allocation starts: aligned as a header and, after the header, as asked; and not so
soon after the start of the block that no header fits before it. -/
theorem allocStartIn_spec (layout : Layout) (hb : 8 ∣ b) : 8 ∣ Heap.allocStartIn b layout.align ∧
      layout.align ∣ Heap.allocStartIn b layout.align + headerSize ∧
      (Heap.allocStartIn b layout.align = b ∨
        b + headerSize ≤ Heap.allocStartIn b layout.align) := by
  have hpos : 0 < layout.align := by
    obtain ⟨k, hk⟩ := layout.isPow
    rw [hk]
    exact Nat.two_pow_pos k
  -- An aligned address not below `b + 16`, less the header.
  have hup : ∀ y, b + headerSize ≤ y → 8 ∣ y → 8 ∣ alignUp y layout.align - headerSize ∧
        layout.align ∣ alignUp y layout.align - headerSize + headerSize ∧
        y - headerSize ≤ alignUp y layout.align - headerSize := by
    intro y hy h8
    have hle := le_alignUp (x := y) hpos
    have hdvd : 8 ∣ alignUp y layout.align := by
      rcases dvd_or_dvd_of_isPow layout.isPow with h | h
      · rw [alignUp_of_dvd hpos (h.trans h8)]
        exact h8
      · exact h.trans dvd_alignUp
    simp only [headerSize] at *
    refine ⟨by omega, ?_, by omega⟩
    rw [Nat.sub_add_cancel (by omega)]
    exact dvd_alignUp
  have h₁ := hup (b + headerSize) le_rfl (by simp only [headerSize]; omega)
  have h₂ := hup (b + headerSize * 2) (by simp only [headerSize]; omega)
    (by simp only [headerSize]; omega)
  rw [Heap.allocStartIn]
  split_ifs with hnear
  · refine ⟨h₂.1, h₂.2.1, .inr ?_⟩
    omega
  refine ⟨h₁.1, h₁.2.1, ?_⟩
  omega

end Ristux.Memory
