import Ristux.Ext2.Inode

-- With the one supported block size a block is two consecutive sectors.

namespace Ristux.Ext2
open Lib Res Proc

variable {w w' : World} {c sector : ℕ} {dev : Device}

theorem reading_bind_of_ok (h : f w.dev = .ok a) : (reading f >>= g) w = g a w :=
  query_bind_of_ok h

theorem reading_bind_of_error (h : f w.dev = .error e) : (reading f >>= g) w = (.error e, w) :=
  bind_of_error (by rw [reading, query_apply, h])

abbrev Disk := ℕ → Buf

def diskOf (fs : Ext2Fs) (dev : Device) : Disk := fun b i =>
  if i < 512 then dev.sector (fs.startSector + b * 2) i
  else dev.sector (fs.startSector + b * 2 + 1) (i - 512)

/-- Both sectors of block `b` exist. -/
def OnDevice (fs : Ext2Fs) (dev : Device) (b : ℕ) : Prop :=
  fs.startSector + b * 2 + 1 < dev.sectorCount ∧ fs.startSector + b * 2 + 1 ≤ u64Max

def World.setBlock (fs : Ext2Fs) (b : ℕ) (data : Buf) (w : World) : World :=
  { w with dev := { w.dev with
      sector := Function.update
        (Function.update w.dev.sector (fs.startSector + b * 2) data)
        (fs.startSector + b * 2 + 1) fun i => data (512 + i) } }

theorem diskOf_setBlock (fs : Ext2Fs) (b : ℕ) (data : Buf) (w : World) :
    diskOf fs (w.setBlock fs b data).dev = Function.update (diskOf fs w.dev) b data := by
  funext c i
  by_cases hc : c = b
  · subst hc
    by_cases hi : i < 512
    · simp [diskOf, World.setBlock, hi]
    · simp [diskOf, World.setBlock, hi, show 512 + (i - 512) = i by omega]
  have h1 : fs.startSector + c * 2 ≠ fs.startSector + b * 2 := by omega
  have h2 : fs.startSector + c * 2 ≠ fs.startSector + b * 2 + 1 := by omega
  have h3 : fs.startSector + c * 2 + 1 ≠ fs.startSector + b * 2 := by omega
  have h4 : fs.startSector + c * 2 + 1 ≠ fs.startSector + b * 2 + 1 := by omega
  simp only [diskOf, World.setBlock, Function.update_apply, if_neg hc, if_neg h1, if_neg h2,
    if_neg h3, if_neg h4]

theorem writeSectors_sectorCount (sector : ℕ) (data : Buf) (w : World) :
    (writeSectors sector data w).2.dev.sectorCount = w.dev.sectorCount := by
  unfold writeSectors
  split_ifs <;> rfl

theorem writeSectors_eq_ok (h : writeSectors sector data w = (.ok (), w')) :
    sector < w.dev.sectorCount := by
  unfold writeSectors at h
  split_ifs at h with hs
  · exact hs
  · simp at h

/-- Whether or not a write succeeds, it leaves the other sectors alone. -/
theorem writeSectors_other (h : other ≠ sector) (data : Buf) (w : World) :
    (writeSectors sector data w).2.dev.sector other = w.dev.sector other := by
  unfold writeSectors
  split_ifs
  · exact Function.update_of_ne h _ _
  · rfl

/-- A device of `count` blocks with the given contents. -/
def deviceOf (count : ℕ) (d : Disk) : Device where
  sectorCount := 2 * count
  sector := fun s i => d (s / 2) (512 * (s % 2) + i)

section Block
variable {fs : Ext2Fs} (hbs : fs.blockSize = 1024)
include hbs

theorem readBlockSized_of_onDevice (hlen : 1024 ≤ len) (h : OnDevice fs dev b) :
    readBlockSized fs b len dev = .ok (diskOf fs dev b) := by
  obtain ⟨h1, h2⟩ := h
  rw [readBlockSized, readBlockAt, if_neg (by omega), hbs]
  simp only [show (1024 : ℕ) / 512 = 2 by norm_num, check_of h2, ok_bind, readSectors,
    if_pos (show fs.startSector + b * 2 < dev.sectorCount by omega), if_pos h1]
  rfl

theorem readBlockSized_eq_ok (h : readBlockSized fs b len dev = .ok data) :
    OnDevice fs dev b ∧ data = diskOf fs dev b := by
  rw [readBlockSized, readBlockAt] at h
  split_ifs at h with hlen
  simp only [Res.bind_eq_ok, hbs, show (1024 : ℕ) / 512 = 2 by norm_num] at h
  obtain ⟨_, hcheck, lo, hlo, hi, hhi, hdata⟩ := h
  have hmax := of_check hcheck
  rw [readSectors] at hlo hhi
  split_ifs at hlo hhi with h1 h2
  cases hlo
  cases hhi
  cases hdata
  exact ⟨⟨h2, hmax⟩, rfl⟩

theorem writeBlockSized_of_onDevice (data : Buf) (hlen : 1024 ≤ len) (h : OnDevice fs w.dev b) :
    writeBlockSized fs b len data w = (.ok (), w.setBlock fs b data) := by
  obtain ⟨h1, h2⟩ := h
  have h0 : fs.startSector + b * 2 < w.dev.sectorCount := by omega
  rw [writeBlockSized, writeBlockAt, if_neg (by omega), hbs]
  simp only [show (1024 : ℕ) / 512 = 2 by norm_num, check_of h2, bind_apply,
    lift_apply, writeSectors, if_pos h0, if_pos h1]
  rfl

theorem writeBlockSized_eq_ok (h : writeBlockSized fs b len data w = (.ok (), w')) :
    OnDevice fs w.dev b ∧ w' = w.setBlock fs b data := by
  have hdev : OnDevice fs w.dev b ∧ 1024 ≤ len := by
    rw [writeBlockSized, writeBlockAt] at h
    split_ifs at h with hlen
    · simp at h
    simp only [Proc.bind_eq_ok, hbs, show (1024 : ℕ) / 512 = 2 by norm_num] at h
    obtain ⟨_, w₁, hcheck, _, w₂, hlo, hhi⟩ := h
    obtain ⟨hmax, rfl⟩ := Prod.mk.inj hcheck
    have h₂ : w₂.dev.sectorCount = w.dev.sectorCount := by
      have := writeSectors_sectorCount (fs.startSector + b * 2) data w
      rwa [hlo] at this
    exact ⟨⟨h₂ ▸ writeSectors_eq_ok hhi, of_check hmax⟩, by omega⟩
  rw [writeBlockSized_of_onDevice hbs data hdev.2 hdev.1] at h
  exact ⟨hdev.1, (Prod.mk.inj h).2.symm⟩

/-- A write to a block writes to its two sectors, or to one of them, or not at all. -/
theorem writeBlockSized_keeps (f : World → α) (b len : ℕ) (data : Buf) (w : World)
    (hf : ∀ s data w, s = fs.startSector + b * 2 ∨ s = fs.startSector + b * 2 + 1 →
      f (writeSectors s data w).2 = f w) : f (writeBlockSized fs b len data w).2 = f w := by
  rw [writeBlockSized, writeBlockAt, hbs]
  simp only [show (1024 : ℕ) / 512 = 2 by norm_num, Res.check]
  split_ifs
  · rfl
  · have hlo := hf (fs.startSector + b * 2) data w (.inl rfl)
    rw [lift_ok_bind, bind_apply]
    rcases hw : writeSectors (fs.startSector + b * 2) data w with ⟨_ | _, w₁⟩
    · rwa [hw] at hlo
    · rw [hw] at hlo
      exact (hf _ _ w₁ (.inr rfl)).trans hlo
  · rfl

theorem writeBlockSized_sectorCount (b len : ℕ) (data : Buf) (w : World) :
    (writeBlockSized fs b len data w).2.dev.sectorCount = w.dev.sectorCount :=
  writeBlockSized_keeps hbs (·.dev.sectorCount) b len data w fun s data w _ =>
    writeSectors_sectorCount s data w

/-- Whether or not a write succeeds, it leaves the other blocks alone. -/
theorem writeBlockSized_other (len : ℕ) (data : Buf) (w : World) (hc : c ≠ b) :
    diskOf fs (writeBlockSized fs b len data w).2.dev c = diskOf fs w.dev c := by
  have hsector : ∀ s, s ≠ fs.startSector + b * 2 → s ≠ fs.startSector + b * 2 + 1 →
      (writeBlockSized fs b len data w).2.dev.sector s = w.dev.sector s := by
    intro s h1 h2
    refine writeBlockSized_keeps hbs (·.dev.sector s) b len data w fun s' data w hs => ?_
    rcases hs with rfl | rfl
    · exact writeSectors_other h1 data w
    · exact writeSectors_other h2 data w
  funext i
  simp only [diskOf, hsector _ (show fs.startSector + c * 2 ≠ _ by omega) (by omega),
    hsector _ (show fs.startSector + c * 2 + 1 ≠ _ by omega) (by omega)]

end Block

end Ristux.Ext2
