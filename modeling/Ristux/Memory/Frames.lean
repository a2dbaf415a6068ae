import Ristux.Lib.WordBits
import Mathlib.Algebra.Order.Group.Nat
import Mathlib.Data.Finset.Card

-- `kernel/src/memory/frame_allocator.rs`. A bit of the bitmap is set if the frame is in use or
-- not usable. Addresses are 64-bit words as numbers; sums of them wrap.

namespace Ristux.Memory
open List Nat

open Lib

def frameSize : ℕ := 4096
def maxPhysicalMemory : ℕ := 16 * 1024 * 1024 * 1024
def maxFrames : ℕ := maxPhysicalMemory / frameSize
def bitmapWords : ℕ := maxFrames / 64

structure MemoryMapEntry where
  baseAddr : BitVec 64
  length : BitVec 64
  typ : BitVec 32

def MemoryMapEntry.isAvailable (e : MemoryMapEntry) : Bool := e.typ = 1#32

structure BootModule where
  start : BitVec 32
  stop : BitVec 32

structure FramebufferInfo where
  addr : BitVec 64
  pitch : BitVec 32
  height : BitVec 32

structure BootInfo where
  memoryMap : Option (List MemoryMapEntry)
  addr : BitVec 64
  totalSize : BitVec 32
  modules : List BootModule
  framebuffer : Option FramebufferInfo

def BootInfo.range (b : BootInfo) : ℕ × ℕ :=
  (b.addr.toNat, (b.addr.toNat + b.totalSize.toNat) % 2 ^ 64)

structure FrameAllocator where
  bitmap : WordBits 64
  maxFrame : ℕ
  totalFrames : ℕ
  freeFrames : ℕ
  initialized : Bool

namespace FrameAllocator

def frameIndex (addr : ℕ) : ℕ := addr / frameSize

def wordsForFrames (frames : ℕ) : ℕ := (frames + 63) / 64

def alignDown (value align : ℕ) : ℕ := value / align * align

def alignUp (value align : ℕ) : ℕ := (value + align - 1) % 2 ^ 64 / align * align

def setUsed (a : FrameAllocator) (index : ℕ) : FrameAllocator :=
  if index / 64 < bitmapWords ∧ a.bitmap.bit index = false then
    { a with bitmap := a.bitmap.set index, freeFrames := a.freeFrames - 1 }
  else a

def setAvailable (a : FrameAllocator) (index : ℕ) : FrameAllocator :=
  if index / 64 < bitmapWords ∧ a.bitmap.bit index = true then
    { a with bitmap := a.bitmap.clear index, totalFrames := a.totalFrames + 1,
             freeFrames := a.freeFrames + 1 }
  else a

def setFree (a : FrameAllocator) (index : ℕ) : FrameAllocator :=
  if index / 64 < bitmapWords ∧ a.bitmap.bit index = true then
    { a with bitmap := a.bitmap.clear index, freeFrames := a.freeFrames + 1 }
  else a

def mark (used : Bool) (a : FrameAllocator) (index : ℕ) : FrameAllocator :=
  if used then a.setUsed index else a.setAvailable index

def markLoop (used : Bool) (stop : ℕ) : ℕ → ℕ → FrameAllocator → FrameAllocator
  | 0, _, a => a
  | fuel + 1, addr, a =>
    if stop ≤ addr then a
    else if maxFrames ≤ frameIndex addr then a
    else markLoop used stop fuel (addr + frameSize) (a.mark used (frameIndex addr))

/-- The frames from `start` to `stop`, both rounded outwards. A frame that is not below
`maxFrames` ends the loop, which therefore takes at most one step for each frame. -/
def markRange (a : FrameAllocator) (start stop : ℕ) (used : Bool) : FrameAllocator :=
  markLoop used (alignUp stop frameSize) (maxFrames + 1) (alignDown start frameSize) a

def addEntry (a : FrameAllocator) (entry : MemoryMapEntry) : FrameAllocator :=
  let start := entry.baseAddr.toNat
  let stop := min (start + entry.length.toNat) (2 ^ 64 - 1)
  if entry.isAvailable then
    { a with maxFrame := max a.maxFrame (frameIndex (alignDown stop frameSize)) }.markRange
      start stop false
  else a

/-- Where the kernel ends in physical memory; `kernelEnd` is the address it is linked at. -/
def kernelPhysEnd (kernelEnd : BitVec 64) : ℕ :=
  if 0xffffffff80000000 ≤ kernelEnd.toNat then kernelEnd.toNat - 0xffffffff80000000
  else kernelEnd.toNat

/-- The ranges that are marked as used. -/
def reservedRanges (boot : BootInfo) (kernelEnd : BitVec 64) : List (ℕ × ℕ) :=
  [(0, 0x100000), (0x100000, kernelPhysEnd kernelEnd), boot.range] ++
    (boot.modules.map fun m => (m.start.toNat, m.stop.toNat)) ++
    (boot.framebuffer.map fun f => (f.addr.toNat,
      (f.addr.toNat + f.pitch.toNat * f.height.toNat) % 2 ^ 64)).toList

def init (boot : BootInfo) (kernelEnd : BitVec 64) : FrameAllocator :=
  let a : FrameAllocator := ⟨WordBits.full 64, 0, 0, 0, false⟩
  let a := (boot.memoryMap.getD []).foldl addEntry a
  let a := (reservedRanges boot kernelEnd).foldl (fun a r => a.markRange r.1 r.2 true) a
  { a with initialized := true }

def allocate (a : FrameAllocator) : Option ℕ × FrameAllocator :=
  if a.initialized = false then (none, a)
  else
    match a.bitmap.firstClear 0 (min (wordsForFrames a.maxFrame) bitmapWords) with
    | none => (none, a)
    | some index =>
      if a.maxFrame ≤ index then (none, a)
      else (some (index * frameSize), a.setUsed index)

def free (a : FrameAllocator) (frame : ℕ) : FrameAllocator :=
  if frameIndex frame < a.maxFrame then a.setFree (frameIndex frame) else a

def Free (a : FrameAllocator) (i : ℕ) : Prop := a.bitmap.bit i = false

instance (a : FrameAllocator) (i : ℕ) : Decidable (a.Free i) := inferInstanceAs (Decidable (_ = _))

/-- `freeFrames` is the number of clear bits. -/
def Counted (a : FrameAllocator) : Prop :=
  a.freeFrames = ((Finset.range maxFrames).filter a.Free).card

section
variable {a : FrameAllocator}

theorem div_lt_bitmapWords : j / 64 < bitmapWords ↔ j < maxFrames := by
  have hwords : bitmapWords = 65536 := by decide
  have hframes : maxFrames = 4194304 := by decide
  omega

theorem free_setUsed : (a.setUsed j).Free i ↔ a.Free i ∧ ¬ (i = j ∧ j < maxFrames) := by
  simp only [setUsed, div_lt_bitmapWords]
  split_ifs with h
  · simp only [Free, WordBits.bit_set (show 0 < 64 by decide), Bool.or_eq_false_iff,
      decide_eq_false_iff_not, h.1, and_true]
    exact and_comm
  refine ⟨fun hfree => ⟨hfree, fun hij => h ⟨hij.2, ?_⟩⟩, And.left⟩
  rw [← hij.1]
  exact hfree

theorem free_setFree : (a.setFree j).Free i ↔ a.Free i ∨ (i = j ∧ j < maxFrames) := by
  simp only [setFree, div_lt_bitmapWords]
  split_ifs with h
  · simp only [Free, WordBits.bit_clear (show 0 < 64 by decide), Bool.and_eq_false_iff,
      Bool.not_eq_false', decide_eq_true_iff, h.1, and_true]
    exact or_comm
  refine ⟨.inl, fun hfree => hfree.elim id fun hij => ?_⟩
  rw [Free, hij.1]
  exact Bool.not_eq_true _ ▸ fun hbit => h ⟨hij.2, hbit⟩

/-- Making a frame available differs from freeing it in `totalFrames` only. -/
theorem setAvailable_eq (a : FrameAllocator) (j : ℕ) :
    a.setAvailable j = { a.setFree j with totalFrames := (a.setAvailable j).totalFrames } := by
  rw [setAvailable, setFree]
  split_ifs <;> rfl

theorem counted_setUsed (h : a.Counted) : (a.setUsed j).Counted := by
  have hfilter : (Finset.range maxFrames).filter (a.setUsed j).Free =
      ((Finset.range maxFrames).filter a.Free).erase j := by
    ext i
    simp only [Finset.mem_filter, Finset.mem_range, Finset.mem_erase, free_setUsed]
    constructor
    · rintro ⟨hi, hfree, hne⟩
      exact ⟨fun hij => hne ⟨hij, hij ▸ hi⟩, hi, hfree⟩
    · rintro ⟨hne, hi, hfree⟩
      exact ⟨hi, hfree, fun hij => hne hij.1⟩
  rw [Counted, hfilter]
  simp only [setUsed, div_lt_bitmapWords]
  split_ifs with hj
  · rw [Finset.card_erase_of_mem (Finset.mem_filter.2 ⟨Finset.mem_range.2 hj.1, hj.2⟩), ← h]
  · rw [Finset.erase_eq_of_notMem, ← h]
    exact fun hmem => hj ((Finset.mem_filter.1 hmem).imp_left Finset.mem_range.1)

theorem counted_setFree (h : a.Counted) : (a.setFree j).Counted := by
  simp only [Counted, setFree, div_lt_bitmapWords]
  split_ifs with hj
  · have hfilter : (Finset.range maxFrames).filter (a.setFree j).Free =
        insert j ((Finset.range maxFrames).filter a.Free) := by
      ext i
      simp only [Finset.mem_filter, Finset.mem_range, Finset.mem_insert, free_setFree]
      constructor
      · rintro ⟨hi, hfree | hij⟩
        · exact .inr ⟨hi, hfree⟩
        · exact .inl hij.1
      rintro (rfl | ⟨hi, hfree⟩)
      · exact ⟨hj.1, .inr ⟨rfl, hj.1⟩⟩
      · exact ⟨hi, .inl hfree⟩
    simp only [setFree, div_lt_bitmapWords, if_pos hj] at hfilter
    rw [hfilter, Finset.card_insert_of_notMem, ← h]
    intro hmem
    have := (Finset.mem_filter.1 hmem).2
    rw [Free, hj.2] at this
    cases this
  · exact h

variable {used : Bool}

theorem free_mark (hj : j < maxFrames) :
    (a.mark used j).Free i ↔ if i = j then used = false else a.Free i := by
  rw [mark]
  cases used with
  | true =>
    rw [if_pos rfl, free_setUsed]
    split_ifs with h <;> simp [h, hj]
  | false =>
    rw [if_neg (by simp), setAvailable_eq]
    refine free_setFree.trans ?_
    split_ifs with h <;> simp [h, hj]

theorem counted_mark (h : a.Counted) : (a.mark used j).Counted := by
  rw [mark]
  split_ifs
  · exact counted_setUsed h
  · rw [setAvailable_eq]
    exact counted_setFree h

theorem maxFrame_mark (used : Bool) (j : ℕ) : (a.mark used j).maxFrame = a.maxFrame := by
  rw [mark, setUsed, setAvailable]
  split_ifs <;> rfl

theorem markLoop_spec {fuel k : ℕ} (hfuel : maxFrames < k + fuel) :
    let b := markLoop used stop fuel (k * frameSize) a
    (∀ i, b.Free i ↔ if i < maxFrames ∧ k ≤ i ∧ i * frameSize < stop then used = false
      else a.Free i) ∧ (a.Counted → b.Counted) ∧ b.maxFrame = a.maxFrame := by
  induction fuel generalizing k a with
  | zero =>
    refine ⟨fun i => ?_, id, rfl⟩
    rw [if_neg (by omega)]
    rfl
  | succ fuel ih =>
    have hindex : frameIndex (k * frameSize) = k := Nat.mul_div_cancel k (by decide)
    simp only [markLoop, hindex]
    by_cases hstop : stop ≤ k * frameSize
    · rw [if_pos hstop]
      refine ⟨fun i => ?_, id, rfl⟩
      rw [if_neg]
      rintro ⟨-, hki, hi⟩
      exact absurd (mul_le_mul_right frameSize hki) (by omega)
    rw [if_neg hstop]
    by_cases hmax : maxFrames ≤ k
    · rw [if_pos hmax]
      refine ⟨fun i => ?_, id, rfl⟩
      rw [if_neg (by omega)]
    rw [if_neg hmax, show k * frameSize + frameSize = (k + 1) * frameSize from
      (succ_mul k frameSize).symm]
    obtain ⟨hfree, hcount, hkeep⟩ := @ih (a.mark used k) (k + 1) (by omega)
    refine ⟨fun i => ?_, fun h => hcount (counted_mark h), hkeep.trans (maxFrame_mark used k)⟩
    rw [hfree i, free_mark (Nat.lt_of_not_le hmax)]
    -- The frame of this step, those after it and the others.
    rcases lt_trichotomy i k with hik | rfl | hik
    · rw [if_neg (by omega), if_neg (by omega), if_neg (by omega)]
    · rw [if_neg (by omega), if_pos rfl, if_pos (by omega)]
    · simp only [hik.le, succ_le_of_lt hik, hik.ne', true_and, if_false]

end

/-- A range of addresses reaches into the frame. Ranges are rounded to frames outwards, and one
that ends in the last frame of the address space to none. -/
def Marks (start stop i : ℕ) : Prop :=
  start < (i + 1) * frameSize ∧ i * frameSize < stop ∧ stop + frameSize ≤ 2 ^ 64

instance (start stop i : ℕ) : Decidable (Marks start stop i) := inferInstanceAs (Decidable (_ ∧ _))

theorem markRange_spec (a : FrameAllocator) (start : ℕ) (used : Bool) (hstop : stop < 2 ^ 64) :
    let b := a.markRange start stop used
    (∀ i, b.Free i ↔ if i < maxFrames ∧ Marks start stop i then used = false else a.Free i) ∧
      (a.Counted → b.Counted) ∧ b.maxFrame = a.maxFrame := by
  obtain ⟨hfree, hrest⟩ := @markLoop_spec a used (alignUp stop frameSize) (maxFrames + 1)
    (start / frameSize) (lt_of_lt_of_le (lt_succ_self _) (le_add_left _ _))
  refine ⟨fun i => (hfree i).trans ?_, hrest⟩
  have hiff : i < maxFrames ∧ start / frameSize ≤ i ∧ i * frameSize < alignUp stop frameSize ↔
      i < maxFrames ∧ Marks start stop i := by
    simp only [Marks, alignUp, frameSize]
    omega
  simp only [hiff]

theorem free_markRange_used (a : FrameAllocator) (hstop : stop < 2 ^ 64) (i : ℕ) :
    (a.markRange start stop true).Free i ↔ a.Free i ∧ ¬ (i < maxFrames ∧ Marks start stop i) := by
  rw [(markRange_spec a start true hstop).1 i]
  split_ifs with h <;> simp [h]

theorem free_markRange_available (a : FrameAllocator) (hstop : stop < 2 ^ 64) (i : ℕ) :
    (a.markRange start stop false).Free i ↔ a.Free i ∨ (i < maxFrames ∧ Marks start stop i) := by
  rw [(markRange_spec a start false hstop).1 i]
  split_ifs with h <;> simp [h]

theorem addEntry_spec (a : FrameAllocator) (e : MemoryMapEntry) :
    (∀ i, (a.addEntry e).Free i ↔ a.Free i ∨ (i < maxFrames ∧ e.isAvailable ∧
      Marks e.baseAddr.toNat (e.baseAddr.toNat + e.length.toNat) i)) ∧
    (a.Counted → (a.addEntry e).Counted) ∧
    ∀ i < maxFrames, i < (a.addEntry e).maxFrame ↔ i < a.maxFrame ∨ (e.isAvailable ∧
      (i + 1) * frameSize ≤ e.baseAddr.toNat + e.length.toNat) := by
  rw [addEntry]
  by_cases havail : e.isAvailable
  · simp only [havail, if_true, true_and]
    generalize e.baseAddr.toNat = base
    generalize base + e.length.toNat = stop
    have hstop : min stop (2 ^ 64 - 1) < 2 ^ 64 := by omega
    generalize hb : ({ a with maxFrame := max a.maxFrame (frameIndex (alignDown
                                (min stop (2 ^ 64 - 1)) frameSize)) } : FrameAllocator) = b
    obtain ⟨-, hcount, hkeep⟩ := markRange_spec b base false hstop
    refine ⟨fun i => ?_, fun h => hcount ?_, fun i hi => ?_⟩
    · have hmarks : Marks base (min stop (2 ^ 64 - 1)) i ↔ Marks base stop i := by
        simp only [Marks, frameSize]
        omega
      rw [free_markRange_available b hstop, hmarks, ← hb]
      rfl
    · rw [← hb]
      exact h
    · rw [hkeep, ← hb]
      have hframes : maxFrames = 4194304 := by decide
      simp only [frameIndex, alignDown, frameSize, lt_max_iff]
      omega
  · simp [havail]

theorem addEntries_spec (entries : List MemoryMapEntry) (a : FrameAllocator) :
    (∀ i, (entries.foldl addEntry a).Free i ↔ a.Free i ∨ (i < maxFrames ∧ ∃ e ∈ entries,
      e.isAvailable ∧ Marks e.baseAddr.toNat (e.baseAddr.toNat + e.length.toNat) i)) ∧
    (a.Counted → (entries.foldl addEntry a).Counted) ∧
    ∀ i < maxFrames, i < (entries.foldl addEntry a).maxFrame ↔ i < a.maxFrame ∨
      ∃ e ∈ entries, e.isAvailable ∧ (i + 1) * frameSize ≤ e.baseAddr.toNat + e.length.toNat := by
  induction entries generalizing a with
  | nil => simp
  | cons e entries ih =>
    obtain ⟨hfree, hcount, hmax⟩ := addEntry_spec a e
    obtain ⟨hfree', hcount', hmax'⟩ := ih (a.addEntry e)
    rw [foldl_cons]
    refine ⟨fun i => ?_, fun h => hcount' (hcount h), fun i hi => ?_⟩
    · simp only [hfree', hfree, mem_cons, exists_eq_or_imp, and_or_left, or_assoc]
    · simp only [hmax' i hi, hmax i hi, mem_cons, exists_eq_or_imp, or_assoc]

theorem markUsed_spec (ranges : List (ℕ × ℕ)) (hstop : ∀ r ∈ ranges, r.2 < 2 ^ 64)
    (a : FrameAllocator) :
    let b := ranges.foldl (fun a r => a.markRange r.1 r.2 true) a
    (∀ i, b.Free i ↔ a.Free i ∧ ¬ (i < maxFrames ∧ ∃ r ∈ ranges, Marks r.1 r.2 i)) ∧
      (a.Counted → b.Counted) ∧ b.maxFrame = a.maxFrame := by
  induction ranges generalizing a with
  | nil => simp
  | cons r ranges ih =>
    have hr := hstop r mem_cons_self
    obtain ⟨-, hcount, hmax⟩ := markRange_spec a r.1 true hr
    obtain ⟨hfree', hcount', hmax'⟩ :=
      ih (forall_mem_cons.1 hstop).2 (a.markRange r.1 r.2 true)
    refine ⟨fun i => (hfree' i).trans ?_, fun h => hcount' (hcount h), hmax'.trans hmax⟩
    simp only [free_markRange_used a hr, mem_cons, exists_eq_or_imp, and_or_left, not_or, and_assoc]

end FrameAllocator

end Ristux.Memory
