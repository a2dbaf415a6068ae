import Ristux.Memory.Frames

-- After `init` frames are allocated and frames that were allocated are freed.

namespace Ristux.Memory
open List

open Lib

def MemoryMapEntry.Has (e : MemoryMapEntry) (x : ℕ) : Prop :=
  e.baseAddr.toNat ≤ x ∧ x < e.baseAddr.toNat + e.length.toNat

namespace FrameAllocator

/-- An allocator with the frames it has handed out and that were not freed since. -/
inductive Run (boot : BootInfo) (kernelEnd : BitVec 64) : FrameAllocator → List ℕ → Prop
  | init : Run boot kernelEnd (init boot kernelEnd) []
  | allocate {a : FrameAllocator} {held : List ℕ} (hrun : Run boot kernelEnd a held) :
      Run boot kernelEnd a.allocate.2 (a.allocate.1.toList ++ held)
  | free {a : FrameAllocator} {l₁ l₂ : List ℕ} {frame : ℕ}
      (hrun : Run boot kernelEnd a (l₁ ++ frame :: l₂)) :
      Run boot kernelEnd (a.free frame) (l₁ ++ l₂)

/-- Memory that may be given away: reported as available and as nothing else, and not the first
MiB, the kernel, the boot information, a module or the framebuffer. -/
structure UsableAt (boot : BootInfo) (kernelEnd : BitVec 64) (x : ℕ) : Prop where
  available : ∃ e ∈ boot.memoryMap.getD [], e.isAvailable ∧ e.Has x
  onlyAvailable : ∀ e ∈ boot.memoryMap.getD [], e.Has x → e.isAvailable
  low : 0x100000 ≤ x
  kernel : kernelPhysEnd kernelEnd ≤ x
  bootInfo : ¬ (boot.addr.toNat ≤ x ∧ x < boot.addr.toNat + boot.totalSize.toNat)
  modules : ∀ m ∈ boot.modules, ¬ (m.start.toNat ≤ x ∧ x < m.stop.toNat)
  framebuffer : ∀ f ∈ boot.framebuffer,
    ¬ (f.addr.toNat ≤ x ∧ x < f.addr.toNat + f.pitch.toNat * f.height.toNat)

def Usable (boot : BootInfo) (kernelEnd : BitVec 64) (frame : ℕ) : Prop :=
  ∀ x, frame ≤ x → x < frame + frameSize → UsableAt boot kernelEnd x

/-- The frame is reached by an available region and by no reserved range. -/
def Offered (boot : BootInfo) (kernelEnd : BitVec 64) (i : ℕ) : Prop :=
  i < maxFrames ∧
    (∃ e ∈ boot.memoryMap.getD [], e.isAvailable ∧
      Marks e.baseAddr.toNat (e.baseAddr.toNat + e.length.toNat) i) ∧
    ∀ r ∈ reservedRanges boot kernelEnd, ¬ Marks r.1 r.2 i

variable {i : ℕ}

section
variable {boot : BootInfo} {kernelEnd : BitVec 64} {a : FrameAllocator} {held : List ℕ}

theorem reservedRanges_lt (hr : r ∈ reservedRanges boot kernelEnd) : r.2 < 2 ^ 64 := by
  have hkernel : kernelPhysEnd kernelEnd < 2 ^ 64 := by
    rw [kernelPhysEnd]
    split_ifs <;> omega
  simp only [reservedRanges, mem_append, mem_cons, mem_map, Option.mem_toList,
    Option.map_eq_some_iff, not_mem_nil, or_false] at hr
  rcases hr with ((rfl | rfl | rfl) | ⟨m, -, rfl⟩) | ⟨f, -, rfl⟩
  · decide
  · exact hkernel
  · exact Nat.mod_lt _ (by decide)
  · exact lt_trans m.stop.isLt (by decide)
  · exact Nat.mod_lt _ (by decide)

theorem init_spec (boot : BootInfo) (kernelEnd : BitVec 64) :
    (∀ i, (init boot kernelEnd).Free i ↔ Offered boot kernelEnd i) ∧ (init boot kernelEnd).Counted ∧
    ∀ i < maxFrames, i < (init boot kernelEnd).maxFrame ↔ ∃ e ∈ boot.memoryMap.getD [],
      e.isAvailable ∧ (i + 1) * frameSize ≤ e.baseAddr.toNat + e.length.toNat := by
  let a₀ : FrameAllocator := ⟨WordBits.full 64, 0, 0, 0, false⟩
  have hnone : ∀ i, ¬ a₀.Free i := fun i => by
    rw [Free, WordBits.bit_full (by decide)]
    decide
  have hcount₀ : a₀.Counted := by
    rw [Counted, Finset.filter_false_of_mem fun i _ => hnone i]
    rfl
  obtain ⟨hfree₁, hcount₁, hmax₁⟩ := addEntries_spec (boot.memoryMap.getD []) a₀
  obtain ⟨hfree₂, hcount₂, hmax₂⟩ := markUsed_spec (reservedRanges boot kernelEnd)
    (fun r hr => reservedRanges_lt hr) ((boot.memoryMap.getD []).foldl addEntry a₀)
  rw [init]
  generalize (boot.memoryMap.getD []).foldl addEntry a₀ = a₁ at *
  generalize (reservedRanges boot kernelEnd).foldl (fun a r => a.markRange r.1 r.2 true) a₁ = a₂
    at *
  refine ⟨fun i => ?_, hcount₂ (hcount₁ hcount₀), fun i hi => ?_⟩
  · change a₂.Free i ↔ _
    rw [hfree₂, hfree₁, Offered]
    simp only [hnone, false_or, not_and, not_exists]
    exact ⟨fun h => ⟨h.1.1, h.1.2, h.2 h.1.1⟩, fun h => ⟨⟨h.1, h.2.1⟩, fun _ => h.2.2⟩⟩
  · change i < a₂.maxFrame ↔ _
    rw [hmax₂, hmax₁ i hi]
    exact or_iff_right (Nat.not_lt_zero i)

theorem allocate_cases (hinit : a.initialized = true) :
    (∃ i, a.allocate = (some (i * frameSize), a.setUsed i) ∧ a.Free i ∧ i < maxFrames ∧
      i < a.maxFrame) ∨
    (a.allocate = (none, a) ∧ ∀ i, i < a.maxFrame → i < maxFrames → ¬ a.Free i) := by
  rw [allocate, if_neg (by simp [hinit])]
  have hwords : bitmapWords * 64 = maxFrames := by decide
  -- The words that are searched hold the bits of all frames in question.
  have hall : ∀ i, i < a.maxFrame → i < maxFrames →
      i < (0 + min (wordsForFrames a.maxFrame) bitmapWords) * 64 := by
    rw [wordsForFrames]
    omega
  cases hfirst : a.bitmap.firstClear 0 (min (wordsForFrames a.maxFrame) bitmapWords) with
  | none =>
    refine .inr ⟨rfl, fun i h₁ h₂ hfree => ?_⟩
    have := WordBits.firstClear_none hfirst i (by omega) (hall i h₁ h₂)
    rw [Free, this] at hfree
    cases hfree
  | some index =>
    obtain ⟨hbit, hlt⟩ := WordBits.firstClear_some hfirst
    dsimp only
    split_ifs with hmax
    · refine .inr ⟨rfl, fun i h₁ h₂ hfree => ?_⟩
      have := WordBits.bit_of_lt_firstClear hfirst i (by omega) (by omega)
      rw [Free, this] at hfree
      cases hfree
    · refine .inl ⟨index, rfl, hbit, ?_, Nat.lt_of_not_le hmax⟩
      omega

/-- What every state of a run keeps: free frames were offered, and so were those handed out. -/
structure Keeps (boot : BootInfo) (kernelEnd : BitVec 64) (a : FrameAllocator) (held : List ℕ) :
    Prop where
  initialized : a.initialized = true
  counted : a.Counted
  maxFrame : a.maxFrame = (init boot kernelEnd).maxFrame
  offered : ∀ i, a.Free i → Offered boot kernelEnd i
  handedOut : ∀ f ∈ held, ∃ i, f = i * frameSize ∧ i < maxFrames ∧ Offered boot kernelEnd i ∧
    ¬ a.Free i
  nodup : held.Nodup

theorem setUsed_keeps (a : FrameAllocator) (i : ℕ) :
    (a.setUsed i).initialized = a.initialized ∧ (a.setUsed i).maxFrame = a.maxFrame := by
  rw [setUsed]
  split_ifs <;> exact ⟨rfl, rfl⟩

theorem setFree_keeps (a : FrameAllocator) (i : ℕ) :
    (a.setFree i).initialized = a.initialized ∧ (a.setFree i).maxFrame = a.maxFrame := by
  rw [setFree]
  split_ifs <;> exact ⟨rfl, rfl⟩

theorem Keeps.not_mem (h : Keeps boot kernelEnd a held) (hfree : a.Free i) :
    i * frameSize ∉ held := by
  intro hmem
  obtain ⟨j, hij, -, -, hused⟩ := h.handedOut _ hmem
  exact hused (Nat.eq_of_mul_eq_mul_right (by decide) hij ▸ hfree)

theorem Keeps.setUsed (h : Keeps boot kernelEnd a held) (hfree : a.Free i) (hi : i < maxFrames) :
    Keeps boot kernelEnd (a.setUsed i) (i * frameSize :: held) where
  initialized := (setUsed_keeps a i).1.trans h.initialized
  counted := counted_setUsed h.counted
  maxFrame := (setUsed_keeps a i).2.trans h.maxFrame
  offered j hj := h.offered j (free_setUsed.1 hj).1
  handedOut f hf := by
    rcases mem_cons.1 hf with rfl | hf
    · exact ⟨i, rfl, hi, h.offered i hfree, fun hj => (free_setUsed.1 hj).2 ⟨rfl, hi⟩⟩
    · obtain ⟨j, rfl, hj, hoff, hused⟩ := h.handedOut f hf
      exact ⟨j, rfl, hj, hoff, fun hfree => hused (free_setUsed.1 hfree).1⟩
  nodup := nodup_cons.2 ⟨h.not_mem hfree, h.nodup⟩

theorem Keeps.free (h : Keeps boot kernelEnd a (l₁ ++ frame :: l₂)) :
    Keeps boot kernelEnd (a.free frame) (l₁ ++ l₂) := by
  obtain ⟨i, rfl, hi, hoff, hused⟩ := h.handedOut frame (by simp)
  have hsub : ∀ f ∈ l₁ ++ l₂, f ∈ l₁ ++ i * frameSize :: l₂ := by
    intro f hf
    rcases mem_append.1 hf with hf | hf <;> simp [hf]
  have hperm : (i * frameSize :: (l₁ ++ l₂)).Nodup := (nodup_middle).1 h.nodup
  obtain ⟨hnot, hnodup⟩ := nodup_cons.1 hperm
  rw [FrameAllocator.free, frameIndex, Nat.mul_div_cancel i (by decide)]
  split_ifs with hmax
  · refine ⟨(setFree_keeps a i).1.trans h.initialized, counted_setFree h.counted,
      (setFree_keeps a i).2.trans h.maxFrame, fun j hj => ?_, fun f hf => ?_, hnodup⟩
    · rcases free_setFree.1 hj with hj | hj
      · exact h.offered j hj
      · exact hj.1 ▸ hoff
    obtain ⟨j, rfl, hj, hoffj, husedj⟩ := h.handedOut f (hsub f hf)
    refine ⟨j, rfl, hj, hoffj, fun hfree => ?_⟩
    rcases free_setFree.1 hfree with hfree | hfree
    · exact husedj hfree
    · exact hnot (hfree.1 ▸ hf)
  · exact ⟨h.initialized, h.counted, h.maxFrame, h.offered, fun f hf => h.handedOut f (hsub f hf),
      hnodup⟩

theorem Run.keeps (hrun : Run boot kernelEnd a held) : Keeps boot kernelEnd a held := by
  induction hrun with
  | init =>
    obtain ⟨hfree, hcount, -⟩ := init_spec boot kernelEnd
    exact ⟨rfl, hcount, rfl, fun i => (hfree i).1, nofun, nodup_nil⟩
  | allocate hrun ih =>
    rcases allocate_cases ih.initialized with ⟨i, heq, hfree, hi, -⟩ | ⟨heq, -⟩
    · rw [heq]
      exact ih.setUsed hfree hi
    · rw [heq]
      exact ih
  | free hrun ih => exact ih.free

/-- An offered frame that is usable is below `maxFrame`. -/
theorem lt_maxFrame_of_usable (hoff : Offered boot kernelEnd i)
    (husable : Usable boot kernelEnd (i * frameSize)) : i < (init boot kernelEnd).maxFrame := by
  have hlast : i * frameSize ≤ i * frameSize + 4095 ∧
      i * frameSize + 4095 < i * frameSize + frameSize := by
    simp only [frameSize]
    omega
  obtain ⟨e, he, havail, -, hlt⟩ := (husable _ hlast.1 hlast.2).available
  refine ((init_spec boot kernelEnd).2.2 i hoff.1).2 ⟨e, he, havail, ?_⟩
  simp only [frameSize] at hlt ⊢
  omega

end

/-- What is handed out is usable and handed out once, until nothing is left. -/
def OnlyUsable (boot : BootInfo) (kernelEnd : BitVec 64) : Prop :=
  ∀ a held, Run boot kernelEnd a held →
    (∀ frame, a.allocate.1 = some frame → Usable boot kernelEnd frame ∧ frame ∉ held) ∧
      (a.allocate.1 = none → a.freeFrames = 0)

section
theorem onlyUsable_of_offered
    (h : ∀ i, Offered boot kernelEnd i → Usable boot kernelEnd (i * frameSize)) :
    OnlyUsable boot kernelEnd := by
  intro a held hrun
  have hkeeps := hrun.keeps
  rcases allocate_cases hkeeps.initialized with ⟨i, heq, hfree, hi, -⟩ | ⟨heq, hnone⟩
  · rw [heq]
    refine ⟨fun frame hframe => ?_, nofun⟩
    cases hframe
    exact ⟨h i (hkeeps.offered i hfree), hkeeps.not_mem hfree⟩
  rw [heq]
  refine ⟨nofun, fun _ => ?_⟩
  rw [hkeeps.counted, Finset.card_eq_zero, Finset.filter_eq_empty_iff]
  intro i hi hfree
  have hoff := hkeeps.offered i hfree
  have hlt := lt_maxFrame_of_usable hoff (h i hoff)
  rw [← hkeeps.maxFrame] at hlt
  exact hnone i hlt (Finset.mem_range.1 hi) hfree

/-- As long as a frame is free, allocating comes to it. -/
theorem usable_of_free (h : OnlyUsable boot kernelEnd) (hi : i < maxFrames) : ∀ n a held,
    Run boot kernelEnd a held → a.freeFrames = n → a.Free i →
    Usable boot kernelEnd (i * frameSize) := by
  intro n
  induction n with
  | zero =>
    intro a held hrun hn hfree
    have hcard := hrun.keeps.counted
    rw [Counted, hn, eq_comm, Finset.card_eq_zero, Finset.filter_eq_empty_iff] at hcard
    exact absurd hfree (hcard (Finset.mem_range.2 hi))
  | succ n ih =>
    intro a held hrun hn hfree
    have hkeeps := hrun.keeps
    rcases allocate_cases hkeeps.initialized with ⟨j, heq, hj, hjmax, -⟩ | ⟨heq, -⟩
    · by_cases hij : i = j
      · rw [hij]
        exact ((h a held hrun).1 _ (by rw [heq])).1
      have hnext := Run.allocate hrun
      rw [heq] at hnext
      refine ih _ _ hnext ?_ (free_setUsed.2 ⟨hfree, fun h => hij h.1⟩)
      rw [setUsed, if_pos ⟨div_lt_bitmapWords.2 hjmax, hj⟩]
      change a.freeFrames - 1 = n
      omega
    · have := (h a held hrun).2 (by rw [heq])
      omega

end

theorem only_usable_iff (boot : BootInfo) (kernelEnd : BitVec 64) : OnlyUsable boot kernelEnd ↔
      ∀ i, Offered boot kernelEnd i → Usable boot kernelEnd (i * frameSize) :=
  ⟨fun h i hoff => usable_of_free h hoff.1 _ _ _ Run.init rfl
    (((init_spec boot kernelEnd).1 i).2 hoff), onlyUsable_of_offered⟩

/-- Available regions of whole frames that no other region reaches into, and reserved ranges that
end before the last page of the address space. -/
structure Aligned (boot : BootInfo) : Prop where
  frames : ∀ e ∈ boot.memoryMap.getD [], e.isAvailable → frameSize ∣ e.baseAddr.toNat ∧
    frameSize ∣ e.length.toNat
  apart : ∀ e ∈ boot.memoryMap.getD [], e.isAvailable → ∀ e' ∈ boot.memoryMap.getD [],
    ∀ x, e.Has x → e'.Has x → e'.isAvailable
  bootInfo : boot.addr.toNat + boot.totalSize.toNat + frameSize ≤ 2 ^ 64
  framebuffer : ∀ f ∈ boot.framebuffer,
    f.addr.toNat + f.pitch.toNat * f.height.toNat + frameSize ≤ 2 ^ 64

theorem kernelPhysEnd_lt (kernelEnd : BitVec 64) : kernelPhysEnd kernelEnd + frameSize < 2 ^ 64 := by
  rw [kernelPhysEnd, frameSize]
  split_ifs <;> omega

/-- On such a machine every frame that is handed out is usable. -/
theorem onlyUsable_of_aligned {boot : BootInfo} (h : Aligned boot) (kernelEnd : BitVec 64) :
    OnlyUsable boot kernelEnd := by
  refine onlyUsable_of_offered fun i hoff x hx hx' => ?_
  obtain ⟨-, ⟨e, he, havail, hstart, hstop, -⟩, hnot⟩ := hoff
  obtain ⟨hbase, hlength⟩ := h.frames e he havail
  -- the region has the whole frame
  have hhas : e.Has x := by
    unfold MemoryMapEntry.Has
    unfold frameSize at *
    omega
  -- a range that is not marked ends before the frame or starts after it
  have hrange : ∀ start stop, (start, stop) ∈ reservedRanges boot kernelEnd →
      stop + frameSize ≤ 2 ^ 64 → ¬(start ≤ x ∧ x < stop) := by
    intro start stop hmem hle hin
    refine hnot _ hmem ⟨?_, ?_, hle⟩
    · unfold frameSize at *
      omega
    · exact lt_of_le_of_lt hx hin.2
  have hlow := hrange 0 0x100000 (by simp [reservedRanges]) (by decide)
  have hkernel := hrange 0x100000 (kernelPhysEnd kernelEnd) (by simp [reservedRanges])
    (kernelPhysEnd_lt kernelEnd).le
  refine ⟨⟨e, he, havail, hhas⟩, fun e' he' hhas' => h.apart e he havail e' he' x hhas hhas',
    by omega, by omega, ?_, fun m hm => ?_, fun f hf => ?_⟩
  · have hend := h.bootInfo
    refine hrange _ _ ?_ hend
    simp only [reservedRanges, BootInfo.range]
    rw [Nat.mod_eq_of_lt (by unfold frameSize at hend; omega)]
    simp
  · refine hrange _ _ ?_ ?_
    · simp only [reservedRanges, mem_append, mem_map]
      exact .inl (.inr ⟨m, hm, rfl⟩)
    · have := m.stop.isLt
      unfold frameSize
      omega
  · have hend := h.framebuffer f hf
    refine hrange _ _ ?_ hend
    simp only [reservedRanges, mem_append, Option.mem_toList, Option.map_eq_some_iff]
    refine .inr ⟨f, hf, ?_⟩
    rw [Nat.mod_eq_of_lt (by unfold frameSize at hend; omega)]

/-- A region that starts in the middle of a frame. -/
def unalignedBoot : BootInfo where
  memoryMap := some [⟨0x200800#64, 0x1800#64, 1#32⟩]
  addr := 0x10000#64
  totalSize := 0x400#32
  modules := []
  framebuffer := none

/-- The first frame handed out starts before the only region. -/
theorem unaligned_hands_out :
    (init unalignedBoot 0xffffffff80150000#64).allocate.1 = some 0x200000 ∧
      ¬ Usable unalignedBoot 0xffffffff80150000#64 0x200000 := by
  constructor
  · decide +kernel
  intro h
  obtain ⟨e, he, -, hle, -⟩ := (h 0x200000 (by decide) (by decide)).available
  obtain rfl := mem_singleton.1 he
  revert hle
  decide

/-- The frames that can be allocated. -/
def allocatable (a : FrameAllocator) : Finset ℕ :=
  (Finset.range (min a.maxFrame maxFrames)).filter a.Free

theorem mem_allocatable {a : FrameAllocator} {i : ℕ} :
    i ∈ a.allocatable ↔ i < a.maxFrame ∧ i < maxFrames ∧ a.Free i := by
  rw [allocatable, Finset.mem_filter, Finset.mem_range, lt_min_iff, and_assoc]

/-- The allocator `b` is `a` after the frames in `taken` were allocated. -/
structure Taken (a b : FrameAllocator) (taken : List ℕ) : Prop where
  initialized : b.initialized = true
  maxFrame : b.maxFrame = a.maxFrame
  counted : b.Counted
  free : ∀ i, b.Free i ↔ a.Free i ∧ i * frameSize ∉ taken
  mem : ∀ frame ∈ taken, ∃ i ∈ a.allocatable, frame = i * frameSize
  nodup : taken.Nodup

namespace Taken
variable {a b : FrameAllocator} {taken : List ℕ}

theorem refl (hinit : a.initialized = true) (hcounted : a.Counted) : Taken a a [] where
  initialized := hinit
  maxFrame := rfl
  counted := hcounted
  free i := by simp
  mem := nofun
  nodup := nodup_nil

theorem mul_frameSize_inj {i j : ℕ} : i * frameSize = j * frameSize ↔ i = j :=
  ⟨Nat.eq_of_mul_eq_mul_right (by decide), fun h => by rw [h]⟩

/-- One more frame is taken, which could be allocated before any was, or there is none left. -/
theorem allocate (h : Taken a b taken) :
    (∃ i ∈ a.allocatable, i * frameSize ∉ taken ∧
      ∃ b', b.allocate = (some (i * frameSize), b') ∧ Taken a b' (i * frameSize :: taken)) ∨
    b.allocate = (none, b) ∧ ∀ i ∈ a.allocatable, i * frameSize ∈ taken := by
  rcases allocate_cases h.initialized with ⟨i, heq, hfree, hi, hmax⟩ | ⟨heq, hnone⟩
  · obtain ⟨hfree₀, hnew⟩ := (h.free i).1 hfree
    have hin : i ∈ a.allocatable := mem_allocatable.2 ⟨h.maxFrame ▸ hmax, hi, hfree₀⟩
    refine .inl ⟨i, hin, hnew, _, heq, ?_⟩
    refine ⟨(setUsed_keeps b i).1.trans h.initialized, (setUsed_keeps b i).2.trans h.maxFrame,
      counted_setUsed h.counted, fun j => ?_, ?_, nodup_cons.2 ⟨hnew, h.nodup⟩⟩
    · rw [free_setUsed, h.free, mem_cons, mul_frameSize_inj]
      constructor
      · rintro ⟨⟨hj, hnot⟩, hne⟩
        exact ⟨hj, fun hmem => hmem.elim (fun heq => hne ⟨heq, hi⟩) hnot⟩
      · rintro ⟨hj, hnot⟩
        exact ⟨⟨hj, fun hmem => hnot (.inr hmem)⟩, fun heq => hnot (.inl heq.1)⟩
    · exact forall_mem_cons.2 ⟨⟨i, hin, rfl⟩, h.mem⟩
  · refine .inr ⟨heq, fun i hi => ?_⟩
    obtain ⟨hmax, hi, hfree⟩ := mem_allocatable.1 hi
    by_contra hnew
    exact hnone i (h.maxFrame.symm ▸ hmax) hi ((h.free i).2 ⟨hfree, hnew⟩)

/-- A frame that was taken is given back. -/
theorem give {frame : ℕ} (h : Taken a b (frame :: taken)) : Taken a (b.free frame) taken := by
  obtain ⟨⟨i, hin, rfl⟩, hmem⟩ := forall_mem_cons.1 h.mem
  obtain ⟨hmax, hi, hfree⟩ := mem_allocatable.1 hin
  obtain ⟨hnot, hnodup⟩ := nodup_cons.1 h.nodup
  have hback : b.free (i * frameSize) = b.setFree i := by
    rw [FrameAllocator.free, frameIndex, Nat.mul_div_cancel i (by decide), h.maxFrame, if_pos hmax]
  rw [hback]
  refine ⟨(setFree_keeps b i).1.trans h.initialized, (setFree_keeps b i).2.trans h.maxFrame,
    counted_setFree h.counted, fun j => ?_, hmem, hnodup⟩
  rw [free_setFree, h.free, mem_cons, mul_frameSize_inj, not_or]
  constructor
  · rintro (⟨hj, -, hj'⟩ | ⟨rfl, -⟩)
    · exact ⟨hj, hj'⟩
    · exact ⟨hfree, hnot⟩
  · rintro ⟨hj, hj'⟩
    by_cases hji : j = i
    · exact .inr ⟨hji, hi⟩
    · exact .inl ⟨hj, hji, hj'⟩

theorem giveAll (h : Taken a b taken) :
    Taken a (taken.foldl FrameAllocator.free b) [] := by
  induction taken generalizing b with
  | nil => exact h
  | cons frame taken ih => exact ih h.give

/-- When all frames are given back, the same ones are free and there are as many. -/
theorem freeFrames_eq (h : Taken a b []) (hcounted : a.Counted) :
    (∀ i, b.Free i ↔ a.Free i) ∧ b.freeFrames = a.freeFrames := by
  have hfree : ∀ i, b.Free i ↔ a.Free i := by
    intro i
    rw [h.free]
    simp
  refine ⟨hfree, ?_⟩
  rw [h.counted, hcounted, Finset.filter_congr fun i _ => hfree i]

/-- A frame that is not given back is missing. -/
theorem freeFrames_ne {frame : ℕ} (h : Taken a b (frame :: taken)) (hcounted : a.Counted) :
    b.freeFrames ≠ a.freeFrames := by
  obtain ⟨i, hin, rfl⟩ := h.mem frame mem_cons_self
  obtain ⟨-, hi, hfree⟩ := mem_allocatable.1 hin
  have hsub : (Finset.range maxFrames).filter b.Free ⊂ (Finset.range maxFrames).filter a.Free := by
    refine Finset.ssubset_iff_subset_ne.2 ⟨fun j hj => ?_, fun heq => ?_⟩
    · rw [Finset.mem_filter, h.free] at hj
      exact Finset.mem_filter.2 ⟨hj.1, hj.2.1⟩
    · have hmem : i ∈ (Finset.range maxFrames).filter a.Free :=
        Finset.mem_filter.2 ⟨Finset.mem_range.2 hi, hfree⟩
      rw [← heq, Finset.mem_filter, h.free] at hmem
      exact hmem.2.2 mem_cons_self
  rw [h.counted, hcounted]
  exact (Finset.card_lt_card hsub).ne

/-- Who has two frames had more than one to take. -/
theorem card_ne_one {first second : ℕ} (h : Taken a b (first :: second :: taken)) :
    a.allocatable.card ≠ 1 := by
  obtain ⟨i, hi, rfl⟩ := h.mem first mem_cons_self
  obtain ⟨j, hj, rfl⟩ := h.mem second (mem_cons_of_mem _ mem_cons_self)
  have hne : i ≠ j := by
    rintro rfl
    exact (nodup_cons.1 h.nodup).1 mem_cons_self
  exact (Finset.one_lt_card.2 ⟨i, hi, j, hj, hne⟩).ne'

end Taken

end FrameAllocator

end Ristux.Memory
