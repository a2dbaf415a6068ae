import Ristux.Ext2.Fresh
import Ristux.Ext2.ReadData

namespace Ristux.Ext2
open Lib List Proc Forest

/-- The bits of the blocks `N` are cleared, and outside the bitmaps nothing changes. -/
structure Frees (fs : Ext2Fs) (w : World) (N : List ℕ) (w' : World) : Prop where
  used : ∀ c, blockUsed fs (diskOf fs w'.dev) c =
    (blockUsed fs (diskOf fs w.dev) c && !N.any fun b => SameBit fs c b)
  other : ∀ c, ¬IsBitmap fs c → diskOf fs w'.dev c = diskOf fs w.dev c
  sectorCount : w'.dev.sectorCount = w.dev.sectorCount

namespace Frees
theorem refl (fs : Ext2Fs) (w : World) : Frees fs w [] w :=
  ⟨by simp, fun _ _ => rfl, rfl⟩

theorem trans (h : Frees fs w N w') (h' : Frees fs w' N' w'') : Frees fs w (N ++ N') w'' where
  used c := by rw [h'.used, h.used, any_append, Bool.not_or, Bool.and_assoc]
  other c hc := (h'.other c hc).trans (h.other c hc)
  sectorCount := h'.sectorCount.trans h.sectorCount

theorem perm (h : Frees fs w N w') (hN : N.Perm N') : Frees fs w N' w' :=
  ⟨fun c => by rw [h.used, hN.any_eq], h.other, h.sectorCount⟩

end Frees

variable {d : Disk}

variable {w w' : World}

/-- A loop of frees, each of which clears the bits of `own k` as long as the disk `d` is
unchanged outside the bitmaps. -/
theorem forEach_frees (own : ℕ → List ℕ) {free : ℕ → M Unit}
    (hd : ∀ c, ¬IsBitmap fs c → diskOf fs w.dev c = d c)
    (hfree : ∀ k ∈ ks, ∀ w w', (∀ c, ¬IsBitmap fs c → diskOf fs w.dev c = d c) →
      free k w = (.ok (), w') → Frees fs w (own k) w')
    (h : forEach free ks w = (.ok (), w')) : Frees fs w (ks.flatMap own) w' := by
  induction ks generalizing w with
  | nil =>
    cases h
    exact Frees.refl fs _
  | cons k ks ih =>
    obtain ⟨_, w₁, h₁, h₂⟩ := bind_eq_ok.1 h
    have hf := hfree k mem_cons_self w w₁ hd h₁
    exact hf.trans (ih (fun c hc => (hf.other c hc).trans (hd c hc))
      (forall_mem_cons.1 hfree).2 h₂)

section Free
variable {fs : Ext2Fs} (hbs : fs.blockSize = 1024)
include hbs

theorem freeBlock_frees (h : freeBlock fs b w = (.ok (), w')) :
    b < fs.blocksCount ∧ Frees fs w [b] w' := by
  rcases freeBlock_cases hbs b w with ⟨e, he⟩ | ⟨w'', hlt, hgroup, heq, hd, hcount⟩
  · rw [he] at h
    cases h
  rw [heq] at h
  cases h
  refine ⟨hlt, fun c => ?_, fun c hc => ?_, hcount⟩
  · rw [hd, blockUsed_markBlock]
    by_cases hs : SameBit fs c b <;> simp [hs]
  rw [hd, markBlock, Function.update_of_ne]
  rintro rfl
  exact hc (bitmapOfBlock_isBitmap hgroup)

section
variable (hd : ∀ c, ¬IsBitmap fs c → diskOf fs w.dev c = d c)
include hd

theorem freeTree_frees (hsafe : ∀ n ∈ nodes (kids d) level b, n < fs.blocksCount → ¬IsBitmap fs n)
    (h : freeTree fs level b w = (.ok (), w')) : Frees fs w (nodes (kids d) level b) w' := by
  induction level generalizing b w w' with
  | zero => exact (freeBlock_frees hbs h).2
  | succ level ih =>
    obtain ⟨ks, w₀, hread, hrest⟩ := bind_eq_ok.1 h
    obtain ⟨_, w₁, hloop, hlast⟩ := bind_eq_ok.1 hrest
    obtain ⟨hlt, hf⟩ := freeBlock_frees hbs hlast
    have hb : ¬IsBitmap fs b := hsafe b (root_mem_nodes _ _) hlt
    obtain ⟨hks, rfl⟩ := Prod.mk.inj hread
    have hkids : ks = kids d b := by
      rw [readIndirectBlocks_eq_ok hbs hks, kids, kids, hd b hb]
    subst hkids
    have hf' := forEach_frees _ hd (fun k hk w w' hw hfree =>
      ih hw (fun n hn => hsafe n (mem_cons_of_mem _ (mem_flatMap.2 ⟨k, hk, hn⟩)))
        hfree) hloop
    exact (hf'.trans hf).perm perm_append_comm

theorem freeTreeIf_frees
    (hsafe : ∀ n ∈ treeOr (nodes (kids d)) level b, n < fs.blocksCount → ¬IsBitmap fs n)
    (h : freeTreeIf fs level b w = (.ok (), w')) :
    Frees fs w (treeOr (nodes (kids d)) level b) w' := by
  unfold freeTreeIf at h
  unfold treeOr at hsafe ⊢
  by_cases hb : b = 0
  · rw [if_neg (not_not.2 hb)] at h
    rw [if_pos hb]
    cases h
    exact Frees.refl fs _
  · rw [if_pos hb] at h
    rw [if_neg hb] at hsafe ⊢
    exact freeTree_frees hbs hd hsafe h

end

/-- Freeing the blocks of an inode clears the bits of its pointer tree. -/
theorem freeInodeBlocks_frees
    (hsafe : ∀ n ∈ refs (diskOf fs w.dev) inode, n < fs.blocksCount → ¬IsBitmap fs n)
    (h : freeInodeBlocks fs inode w = (.ok (), w')) :
    Frees fs w (refs (diskOf fs w.dev) inode) w' := by
  obtain ⟨d, hdef⟩ : ∃ d, d = diskOf fs w.dev := ⟨_, rfl⟩
  have hd : ∀ c, ¬IsBitmap fs c → diskOf fs w.dev c = d c := fun c _ => by rw [hdef]
  obtain ⟨_, w₁, h₁, hrest⟩ := bind_eq_ok.1 h
  obtain ⟨_, w₂, h₂, hrest⟩ := bind_eq_ok.1 hrest
  obtain ⟨_, w₃, h₃, h₄⟩ := bind_eq_ok.1 hrest
  rw [← hdef, refs_eq] at hsafe ⊢
  simp only [mem_append, or_imp, forall_and] at hsafe
  obtain ⟨⟨⟨-, hs₂⟩, hs₃⟩, hs₄⟩ := hsafe
  have hf₁ := forEach_frees (fun b => [b]) hd (fun k _ w w' _ hk => (freeBlock_frees hbs hk).2) h₁
  rw [flatMap_singleton'] at hf₁
  have hd₁ := fun c hc => (hf₁.other c hc).trans (hd c hc)
  have hf₂ := freeTreeIf_frees hbs hd₁ hs₂ h₂
  have hd₂ := fun c hc => (hf₂.other c hc).trans (hd₁ c hc)
  have hf₃ := freeTreeIf_frees hbs hd₂ hs₃ h₃
  have hd₃ := fun c hc => (hf₃.other c hc).trans (hd₂ c hc)
  exact ((hf₁.trans hf₂).trans hf₃).trans (freeTreeIf_frees hbs hd₃ hs₄ h₄)

end Free

end Ristux.Ext2
