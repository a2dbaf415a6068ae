import Ristux.Ext2.Alloc
import Ristux.Ext2.Data

-- The writer of file data allocates blocks and fills them. `Fresh fs w N w'` is what such a
-- computation leaves behind: the blocks `N` were free and are used now, and apart from them and
-- the bitmaps the disk is the same.

namespace Ristux.Ext2
open Lib List Function Proc Forall₂

def IsBitmap (fs : Ext2Fs) (b : ℕ) : Prop := ∃ group ∈ fs.groups, group.blockBitmap = b

/-- No free block is the null pointer or a block bitmap. -/
def Protected (fs : Ext2Fs) (d : Disk) : Prop :=
  ∀ b < fs.blocksCount, blockUsed fs d b = false → b ≠ 0 ∧ ¬IsBitmap fs b

structure Fresh (fs : Ext2Fs) (w : World) (N : List ℕ) (w' : World) : Prop where
  nodup : N.Nodup
  free : ∀ b ∈ N, b < fs.blocksCount ∧ b ≤ u32Max ∧ blockUsed fs (diskOf fs w.dev) b = false
  used : ∀ c, blockUsed fs (diskOf fs w'.dev) c =
    (blockUsed fs (diskOf fs w.dev) c || N.any fun b => SameBit fs c b)
  other : ∀ c, c ∉ N → ¬IsBitmap fs c → diskOf fs w'.dev c = diskOf fs w.dev c
  sectorCount : w'.dev.sectorCount = w.dev.sectorCount

variable {b : ℕ}

theorem bitmapOfBlock_isBitmap (h : b / fs.blocksPerGroup < fs.groups.length) :
    IsBitmap fs (bitmapOfBlock fs b) := by
  refine ⟨_, getElem_mem h, ?_⟩
  rw [bitmapOfBlock, groupAt, getD_eq_getElem _ _ h]

theorem blockUsed_update_of_not_isBitmap
    (hb : ¬IsBitmap fs b) (hb0 : b ≠ 0) : blockUsed fs (update d b data) c = blockUsed fs d c := by
  have hne : bitmapOfBlock fs c ≠ b := by
    by_cases h : c / fs.blocksPerGroup < fs.groups.length
    · rintro rfl
      exact hb (bitmapOfBlock_isBitmap h)
    · rw [bitmapOfBlock, groupAt, getD_eq_default _ _ (by omega)]
      exact hb0.symm
  rw [blockUsed, blockUsed, update_of_ne hne]

namespace Fresh
theorem refl (fs : Ext2Fs) (w : World) : Fresh fs w [] w where
  nodup := nodup_nil
  free := by simp
  used := by simp
  other _ _ _ := rfl
  sectorCount := rfl

variable (h : Fresh fs w N w')
include h

theorem mem_used (hb : b ∈ N) : blockUsed fs (diskOf fs w'.dev) b = true := by
  rw [h.used, any_eq_true.2 ⟨b, hb, decide_eq_true ⟨rfl, rfl⟩⟩, Bool.or_true]

theorem free_of_free (hb : blockUsed fs (diskOf fs w'.dev) b = false) :
    blockUsed fs (diskOf fs w.dev) b = false := by
  rw [h.used, Bool.or_eq_false_iff] at hb
  exact hb.1

section
variable (hp : Protected fs (diskOf fs w.dev))
include hp

theorem isProtected :
    Protected fs (diskOf fs w'.dev) := fun b hb hfree => hp b hb (h.free_of_free hfree)

omit hp in
theorem trans (h' : Fresh fs w' N' w'') : Fresh fs w (N ++ N') w'' where
  nodup := by
    refine nodup_append.2 ⟨h.nodup, h'.nodup, ?_⟩
    rintro b hb _ hb' rfl
    have := h.mem_used hb
    rw [(h'.free b hb').2.2] at this
    cases this
  free b hb := by
    rcases mem_append.1 hb with hb | hb
    · exact h.free b hb
    · exact ⟨(h'.free b hb).1, (h'.free b hb).2.1, h.free_of_free (h'.free b hb).2.2⟩
  used c := by rw [h'.used, h.used, any_append, Bool.or_assoc]
  other c hc hbm := by
    rw [mem_append, not_or] at hc
    rw [h'.other c hc.2 hbm, h.other c hc.1 hbm]
  sectorCount := h'.sectorCount.trans h.sectorCount

/-- What was just written is not touched by what is allocated later. -/
theorem keeps (h' : Fresh fs w' N' w'') (hb : b ∈ N) : diskOf fs w''.dev b = diskOf fs w'.dev b := by
  refine h'.other b (fun hb' => ?_) (hp b (h.free b hb).1 (h.free b hb).2.2).2
  have := h.mem_used hb
  rw [(h'.free b hb').2.2] at this
  cases this

/-- A block that was allocated here may be written again. -/
theorem write (hb : b ∈ N) (hother : ∀ c, c ≠ b → diskOf fs w''.dev c = diskOf fs w'.dev c)
    (hcount : w''.dev.sectorCount = w'.dev.sectorCount) : Fresh fs w N w'' := by
  obtain ⟨hb0, hbm⟩ := hp b (h.free b hb).1 (h.free b hb).2.2
  have hd : diskOf fs w''.dev = update (diskOf fs w'.dev) b (diskOf fs w''.dev b) := by
    funext c
    by_cases hc : c = b
    · rw [hc, update_self]
    · rw [update_of_ne hc, hother c hc]
  refine ⟨h.nodup, h.free, fun c => ?_, fun c hc hcm => ?_, hcount.trans h.sectorCount⟩
  · rw [hd, blockUsed_update_of_not_isBitmap hbm hb0, h.used]
  · rw [hother c fun hcb => hc (hcb ▸ hb), h.other c hc hcm]

end

end Fresh

/-- `x` writes only to blocks it allocates, and when it returns `a` having allocated `N`,
`Q a N` holds of the world it leaves. -/
def Allocs {α : Type} (fs : Ext2Fs) (x : M α) (Q : α → List ℕ → World → Prop) : Prop :=
  ∀ w, Protected fs (diskOf fs w.dev) →
    ∃ N, Fresh fs w N (x w).2 ∧ ∀ a, (x w).1 = .ok a → Q a N (x w).2

/-- `Q a N` only depends on the blocks of `N`. -/
def Stable {α : Type} (fs : Ext2Fs) (Q : α → List ℕ → World → Prop) : Prop :=
  ∀ a N w w', Q a N w → (∀ b ∈ N, diskOf fs w'.dev b = diskOf fs w.dev b) →
    w'.dev.sectorCount = w.dev.sectorCount → Q a N w'

namespace Allocs
variable {fs : Ext2Fs}

theorem pure (h : ∀ w, Q a [] w) : Allocs fs (pure a) Q :=
  fun w _ => ⟨[], Fresh.refl fs w, by rintro _ ⟨⟩; exact h w⟩

theorem mono (hx : Allocs fs x Q) (h : ∀ a N w, Q a N w → Q' a N w) : Allocs fs x Q' := by
  intro w hw
  obtain ⟨N, hN, hQ⟩ := hx w hw
  exact ⟨N, hN, fun a ha => h a N _ (hQ a ha)⟩

theorem fail (e : Ext2Error) : Allocs fs (fail e) Q :=
  fun w _ => ⟨[], Fresh.refl fs w, by rintro _ ⟨⟩⟩

theorem bind (hP : Stable fs P) (hx : Allocs fs x P)
    (hf : ∀ a, (∃ N w, P a N w) → Allocs fs (f a) fun b N w => ∀ N₀, P a N₀ w → Q b (N₀ ++ N) w) :
    Allocs fs (x >>= f) Q := by
  intro w hw
  obtain ⟨N, hN, hPa⟩ := hx w hw
  rw [bind_apply]
  rcases hxw : x w with ⟨e | a, w'⟩
  · rw [hxw] at hN
    exact ⟨N, hN, by rintro _ ⟨⟩⟩
  rw [hxw] at hN hPa
  obtain ⟨N', hN', hQ⟩ := hf a ⟨N, w', hPa a rfl⟩ w' (hN.isProtected hw)
  refine ⟨N ++ N', hN.trans hN', fun b hb => hQ b hb N ?_⟩
  exact hP a N w' _ (hPa a rfl) (fun c hc => hN.keeps hw hN' hc) hN'.sectorCount

section MapEach
variable {P : α → β → World → Prop} {own : World → β → List ℕ}
  (hP : ∀ x, Stable fs fun b N w => P x b w ∧ N = own w b)
include hP

theorem stable_forall₂ (xs : List α) : Stable fs fun bs N w =>
    Forall₂ (fun x b => P x b w) xs bs ∧ N = bs.flatMap (own w) := by
  rintro bs N w w' ⟨hall, rfl⟩ hsame hcount
  have hkeep : ∀ x, ∀ b ∈ bs, P x b w → P x b w' ∧ own w b = own w' b := fun x b hb hPb =>
    hP x b _ w w' ⟨hPb, rfl⟩ (fun c hc => hsame c (mem_flatMap.2 ⟨b, hb, hc⟩)) hcount
  clear hsame
  induction hall with
  | nil => exact ⟨nil, rfl⟩
  | cons hx _ ih =>
    obtain ⟨hrest, hflat⟩ := ih fun x b hb => hkeep x b (mem_cons_of_mem _ hb)
    obtain ⟨hx', hown⟩ := hkeep _ _ mem_cons_self hx
    exact ⟨cons hx' hrest, by rw [flatMap_cons, flatMap_cons, hown, hflat]⟩

theorem mapEach (h : ∀ x ∈ xs, Allocs fs (f x) fun b N w => P x b w ∧ N = own w b) :
    Allocs fs (mapEach f xs) fun bs N w =>
      Forall₂ (fun x b => P x b w) xs bs ∧ N = bs.flatMap (own w) := by
  induction xs with
  | nil => exact Allocs.pure fun _ => ⟨nil, rfl⟩
  | cons x xs ih =>
    refine Allocs.bind (hP x) (h x mem_cons_self) fun b _ => ?_
    refine Allocs.bind (stable_forall₂ hP xs) (ih (forall_mem_cons.1 h).2)
      fun bs _ => ?_
    refine Allocs.pure fun w N hN N₀ hN₀ => ?_
    rw [append_nil]
    exact ⟨cons hN₀.1 hN.1, by rw [flatMap_cons, hN₀.2, hN.2]⟩

end MapEach

theorem currentExt2Time (h : ∀ now w, now ≤ u32Max → Q now [] w) : Allocs fs currentExt2Time Q := by
  intro w _
  refine ⟨[], ⟨by simp, by simp, by simp [Ext2.currentExt2Time, bind_apply,
    filesystemTimestamp], fun _ _ _ => rfl, rfl⟩, ?_⟩
  rintro _ ⟨⟩
  exact h _ _ (Nat.min_le_right _ _)

section Block
variable (hbs : fs.blockSize = 1024)
include hbs

theorem allocateBlock : Allocs fs (allocateBlock fs) fun b N _ => N = [b] := by
  intro w hw
  rcases allocateBlock_cases hbs w with ⟨e, he⟩ | ⟨b, w', hlt, hmax, hgroup, hfree, heq, hd, hcount⟩
  · rw [he]
    exact ⟨[], Fresh.refl fs w, by rintro _ ⟨⟩⟩
  rw [heq]
  refine ⟨[b], ⟨by simp, ?_, fun c => ?_, fun c _ hcm => ?_, hcount⟩, ?_⟩
  · intro c hc
    rw [mem_singleton.1 hc]
    exact ⟨hlt, hmax, hfree⟩
  · rw [hd, blockUsed_markBlock]
    by_cases hs : SameBit fs c b <;> simp [hs]
  · rw [hd, markBlock, Function.update_of_ne]
    rintro rfl
    exact hcm (bitmapOfBlock_isBitmap hgroup)
  · rintro _ ⟨⟩
    rfl

/-- Allocate, go on, and fill the allocated block at the end. -/
theorem allocate_fill {P : α → List ℕ → World → Prop} (hP : Stable fs P) (rest : M α)
    (hrest : Allocs fs rest P) (len : ℕ) (check : α → R Unit) (data : α → Buf) :
    Allocs fs (Ext2.allocateBlock fs >>= fun b => rest >>= fun a =>
        lift (check a) >>= fun _ => writeBlockSized fs b len (data a) >>= fun _ => Pure.pure b)
      fun b N w => ∃ a N', N = b :: N' ∧ P a N' w ∧ check a = .ok () ∧ OnDevice fs w.dev b ∧
        diskOf fs w.dev b = data a ∧ b ≠ 0 ∧ b ≤ u32Max := by
  intro w hw
  obtain ⟨N, hN, hb⟩ := allocateBlock hbs w hw
  rcases hxw : Ext2.allocateBlock fs w with ⟨e | b, w₁⟩
  · rw [bind_of_error hxw]
    rw [hxw] at hN
    exact ⟨N, hN, by rintro _ ⟨⟩⟩
  rw [bind_of_ok hxw]
  rw [hxw] at hN hb
  obtain rfl := hb b rfl
  have hw₁ := hN.isProtected hw
  obtain ⟨N', hN', ha⟩ := hrest w₁ hw₁
  rcases hrw : rest w₁ with ⟨e | a, w₂⟩
  · rw [bind_of_error hrw]
    rw [hrw] at hN'
    exact ⟨[b] ++ N', hN.trans hN', by rintro _ ⟨⟩⟩
  rw [bind_of_ok hrw]
  rw [hrw] at hN' ha
  have h₂ := hN.trans hN'
  rcases hc : check a with e | u
  · exact ⟨[b] ++ N', h₂, by rintro _ ⟨⟩⟩
  rw [lift_ok_bind]
  have hmem : b ∈ [b] ++ N' := by simp
  have hother : ∀ c, c ≠ b → _ := fun c hcb =>
    writeBlockSized_other hbs len (data a) w₂ hcb
  have hcount := writeBlockSized_sectorCount hbs b len (data a) w₂
  have h₃ := h₂.write hw hmem hother hcount
  rcases hww : writeBlockSized fs b len (data a) w₂ with ⟨e | u, w₃⟩
  · rw [bind_of_error hww]
    rw [hww] at h₃
    exact ⟨[b] ++ N', h₃, by rintro _ ⟨⟩⟩
  rw [bind_of_ok hww]
  rw [hww] at h₃ hother hcount
  refine ⟨[b] ++ N', h₃, ?_⟩
  rintro _ ⟨⟩
  obtain ⟨hdev, hw₃⟩ := writeBlockSized_eq_ok hbs hww
  have hfree := h₂.free b hmem
  refine ⟨a, N', rfl, ?_, hc, ?_, ?_, (hw b hfree.1 hfree.2.2).1, hfree.2.1⟩
  · refine hP a N' w₂ w₃ (ha a rfl) (fun c hc => hother c ?_) hcount
    rintro rfl
    exact (nodup_cons.1 h₂.nodup).1 hc
  · rw [hw₃]
    exact hdev
  · change diskOf fs w₃.dev b = _
    rw [hw₃, diskOf_setBlock, update_self]

end Block

end Allocs

end Ristux.Ext2
