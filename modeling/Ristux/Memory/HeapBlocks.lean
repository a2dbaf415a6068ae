import Ristux.Memory.Heap

-- What the heap does to the list of its free blocks: which block an allocation is placed in and
-- what stays free of it.

namespace Ristux.Memory
open List Option

open Lib

namespace Layout
variable (layout : Layout) (b : Block)

def allocSize : ℕ := alignUp (headerSize + layout.size) freeBlockAlign

/-- Where the layout is placed in the block. -/
def place : ℕ := Heap.allocStartIn b.addr layout.align

def before : ℕ := layout.place b - b.addr

def remainder : ℕ := b.size - (layout.before b + layout.allocSize)

def fits : Bool := layout.before b + layout.allocSize ≤ b.size

def used : Block :=
  ⟨layout.place b, if headerSize ≤ layout.remainder b then layout.allocSize
    else layout.allocSize + layout.remainder b⟩

/-- What stays free of the block after the part that is used. -/
def rest : List Block :=
  if headerSize ≤ layout.remainder b then [⟨(layout.used b).stop, layout.remainder b⟩] else []

/-- What stays free of the block. -/
def spared : List Block :=
  (if headerSize ≤ layout.before b then [⟨b.addr, layout.before b⟩] else []) ++ layout.rest b

/-- The first block that fits: what is taken of it, and what is free then. -/
def allocFrom : List Block → Option (Block × List Block)
  | [] => none
  | b :: l =>
    if layout.fits b then some (layout.used b, layout.spared b ++ l)
    else (allocFrom l).map fun r => (r.1, b :: r.2)

section
variable {layout : Layout} {b u : Block}

theorem allocFrom_cases (h : layout.allocFrom free = some (u, free')) :
    ∃ pre b l, free = pre ++ b :: l ∧ layout.fits b ∧ u = layout.used b ∧
      free' = pre ++ (layout.spared b ++ l) := by
  induction free generalizing free' with
  | nil => cases h
  | cons b l ih =>
    rw [allocFrom] at h
    split_ifs at h with hfit
    · obtain ⟨rfl, rfl⟩ := Prod.mk.inj (some.inj h)
      exact ⟨[], b, l, rfl, hfit, rfl, rfl⟩
    obtain ⟨⟨u', l'⟩, hfrom, heq⟩ := map_eq_some_iff.1 h
    obtain ⟨rfl, rfl⟩ := Prod.mk.inj heq
    obtain ⟨pre, c, post, rfl, hfits, hu, rfl⟩ := ih hfrom
    exact ⟨b :: pre, c, post, rfl, hfits, hu, rfl⟩

theorem mem_rest : c ∈ layout.rest b ↔
    headerSize ≤ layout.remainder b ∧ c = ⟨(layout.used b).stop, layout.remainder b⟩ := by
  rw [rest]
  split_ifs with h <;> simp [h]

theorem mem_spared : c ∈ layout.spared b ↔
    (headerSize ≤ layout.before b ∧ c = ⟨b.addr, layout.before b⟩) ∨ c ∈ layout.rest b := by
  rw [spared, mem_append]
  split_ifs with h <;> simp [h]

section
variable (hb : 8 ∣ b.addr) (hfit : layout.fits b)
include hb hfit

/-- Where the used part lies in the block. -/
theorem used_spec : 8 ∣ (layout.used b).addr ∧ 8 ∣ layout.allocSize ∧
      layout.align ∣ (layout.used b).addr + headerSize ∧
      headerSize + layout.size ≤ (layout.used b).size ∧
      (layout.used b).addr = b.addr + layout.before b ∧
      (layout.before b = 0 ∨ headerSize ≤ layout.before b) ∧
      (headerSize ≤ layout.remainder b → (layout.used b).size = layout.allocSize ∧
          (layout.used b).stop + layout.remainder b = b.stop) ∧
      (¬ headerSize ≤ layout.remainder b → (layout.used b).stop = b.stop) := by
  obtain ⟨h8, halign, hplace⟩ := allocStartIn_spec layout hb
  have hasize : headerSize + layout.size ≤ layout.allocSize := le_alignUp (by decide)
  have hfit' : layout.before b + layout.allocSize ≤ b.size := of_decide_eq_true hfit
  change layout.place b = b.addr ∨ b.addr + headerSize ≤ layout.place b at hplace
  have hbefore : layout.before b = layout.place b - b.addr := rfl
  have hrem : layout.remainder b = b.size - (layout.before b + layout.allocSize) := rfl
  refine ⟨h8, dvd_alignUp, halign, ?_, ?_, by omega, fun h => ?_, fun h => ?_⟩
  · rw [used]
    split_ifs <;> dsimp only <;> omega
  · change layout.place b = _
    omega
  all_goals
    simp only [used, h, if_true, if_false, Block.stop, true_and]
    omega

theorem used_stop_le : (layout.used b).stop ≤ b.stop := by
  obtain ⟨-, -, -, -, -, -, hbig, hsmall⟩ := used_spec hb hfit
  by_cases hr : headerSize ≤ layout.remainder b
  · have := hbig hr
    omega
  · exact (hsmall hr).le

/-- What is used and what is spared are the block. -/
theorem has_iff_cut (x : ℕ) : b.Has x ↔ (layout.used b).Has x ∨ Covers (layout.spared b) x := by
  obtain ⟨-, -, -, -, haddr, hbefore, hbig, hsmall⟩ := used_spec hb hfit
  have hcov : Covers (layout.spared b) x ↔
      (headerSize ≤ layout.before b ∧ Block.Has ⟨b.addr, layout.before b⟩ x) ∨
      (headerSize ≤ layout.remainder b ∧
        Block.Has ⟨(layout.used b).stop, layout.remainder b⟩ x) := by
    simp only [Covers, mem_spared, mem_rest, or_and_right, exists_or, and_assoc,
      exists_eq_left, exists_and_left]
  rw [hcov]
  simp only [Block.Has, Block.stop, headerSize] at *
  by_cases h : 16 ≤ layout.remainder b
  · have := hbig h
    omega
  · have := hsmall h
    omega

theorem spared_spec : Gapped (layout.spared b) ∧ ∀ c ∈ layout.spared b,
      b.addr ≤ c.addr ∧ c.stop ≤ b.stop ∧ headerSize ≤ c.size ∧ 8 ∣ c.addr ∧
        (layout.used b).Apart c := by
  obtain ⟨h8, ha8, -, hroom, haddr, hbefore, hbig, hsmall⟩ := used_spec hb hfit
  constructor
  · rw [spared, rest]
    split_ifs
    · refine pairwise_pair.2 ?_
      simp only [Block.stop, headerSize] at *
      omega
    · exact pairwise_singleton _ _
    · exact pairwise_singleton _ _
    · exact List.Pairwise.nil
  intro c hc
  rcases mem_spared.1 hc with ⟨h, rfl⟩ | hc
  · refine ⟨le_rfl, ?_, h, hb, .inr haddr.ge⟩
    simp only [Block.stop] at *
    omega
  obtain ⟨h, rfl⟩ := mem_rest.1 hc
  have := hbig h
  refine ⟨?_, this.2.le, h, ?_, .inl le_rfl⟩
  · simp only [Block.stop]
    omega
  · simp only [Block.stop]
    omega

end

/-- What is taken out of free blocks. -/
theorem allocFrom_spec (hgapped : Gapped free) (h8 : ∀ b ∈ free, 8 ∣ b.addr)
    (h : layout.allocFrom free = some (u, free')) :
    (8 ∣ u.addr ∧ layout.align ∣ u.addr + headerSize ∧ headerSize + layout.size ≤ u.size) ∧
      Gapped free' ∧ (∀ c ∈ free', c ∈ free ∨ headerSize ≤ c.size ∧ 8 ∣ c.addr) ∧
      (∀ c ∈ free', u.Apart c) ∧ ∀ x, Covers free x ↔ u.Has x ∨ Covers free' x := by
  obtain ⟨pre, b, l, rfl, hfit, rfl, rfl⟩ := allocFrom_cases h
  have hb := h8 b (by simp)
  obtain ⟨hu8, -, halign, hroom, haddr, -⟩ := used_spec hb hfit
  obtain ⟨hpieces, hin⟩ := spared_spec hb hfit
  have hstop := used_stop_le hb hfit
  have hother : ∀ c, c ∈ pre ∨ c ∈ l → (layout.used b).Apart c := by
    have hpair := hgapped
    rw [Gapped, pairwise_append, pairwise_cons] at hpair
    rintro c (hc | hc)
    · have := hpair.2.2 c hc b mem_cons_self
      exact .inr (by omega)
    · have := hpair.2.1.1 c hc
      exact .inl (by omega)
  refine ⟨⟨hu8, halign, hroom⟩, hgapped.cut hpieces fun c hc => ⟨(hin c hc).1, (hin c hc).2.1⟩,
    fun c hc => ?_, fun c hc => ?_, fun x => ?_⟩
  · rw [mem_append, mem_append] at hc
    rcases hc with hc | hc | hc
    · exact .inl (by simp [hc])
    · obtain ⟨-, -, hc16, hc8, -⟩ := hin c hc
      exact .inr ⟨hc16, hc8⟩
    · exact .inl (by simp [hc])
  · rw [mem_append, mem_append] at hc
    rcases hc with hc | hc | hc
    · exact hother c (.inl hc)
    · exact (hin c hc).2.2.2.2
    · exact hother c (.inr hc)
  · simp only [covers_append, covers_cons, has_iff_cut hb hfit x]
    tauto

end

end Layout

/-- Blocks in order, each with room for a header at an aligned address that is not null. -/
structure Roomy (free : List Block) : Prop where
  ascending : Ascending free
  room : ∀ b ∈ free, headerSize ≤ b.size
  nonnull : ∀ b ∈ free, 0 < b.addr
  aligned : ∀ b ∈ free, 8 ∣ b.addr

/-- The address of the last block, or null. -/
def lastAddr (pre : List Block) : ℕ := (pre.getLast?.map Block.addr).getD 0

section
theorem Roomy.apart (h : Roomy (pre ++ b :: l)) (hc : c ∈ pre ∨ c ∈ l) : c.Apart b := by
  have hpair := h.ascending
  rw [Ascending, pairwise_append, pairwise_cons] at hpair
  rcases hc with hc | hc
  · exact .inl (hpair.2.2 c hc b mem_cons_self)
  · exact .inr (hpair.2.1.1 c hc)

theorem Roomy.join (h : Roomy (pre ++ b :: n :: l)) (htouch : b.stop = n.addr) :
    Roomy (pre ++ ⟨b.addr, b.size + n.size⟩ :: l) := by
  have hpair := h.ascending
  simp only [Ascending, pairwise_append, pairwise_cons, mem_cons] at hpair
  obtain ⟨hpre, ⟨hb, hn, hl⟩, hcross⟩ := hpair
  have hstop : Block.stop ⟨b.addr, b.size + n.size⟩ = n.stop := by
    simp only [Block.stop] at htouch ⊢
    omega
  have hmem : ∀ c ∈ pre ++ ⟨b.addr, b.size + n.size⟩ :: l,
      ∃ d ∈ pre ++ b :: n :: l, c.addr = d.addr ∧ d.size ≤ c.size := by
    intro c hc
    simp only [mem_append, mem_cons] at hc
    rcases hc with hc | rfl | hc
    · exact ⟨c, by simp [hc], rfl, le_rfl⟩
    · exact ⟨b, by simp, rfl, Nat.le_add_right _ _⟩
    · exact ⟨c, by simp [hc], rfl, le_rfl⟩
  refine ⟨?_, fun c hc => ?_, fun c hc => ?_, fun c hc => ?_⟩
  · simp only [Ascending, pairwise_append, pairwise_cons, mem_cons]
    refine ⟨hpre, ⟨fun c hc => hstop ▸ hn c hc, hl⟩, fun c hc d hd => ?_⟩
    rcases hd with rfl | hd
    · exact hcross c hc b (.inl rfl)
    · exact hcross c hc d (.inr (.inr hd))
  all_goals obtain ⟨d, hd, haddr, hsize⟩ := hmem c hc
  · exact (h.room d hd).trans hsize
  · exact haddr ▸ h.nonnull d hd
  · exact haddr ▸ h.aligned d hd

theorem Roomy.insertBlock (h : Roomy free)
    (hu : ∀ d ∈ free, u.Apart d) (hroom : headerSize ≤ u.size) (hpos : 0 < u.addr)
    (h8 : 8 ∣ u.addr) : Roomy (insertBlock u free) := by
  have hsize : ∀ c : Block, headerSize ≤ c.size → 0 < c.size := fun c hc =>
    Nat.lt_of_lt_of_le (by decide) hc
  refine ⟨ascending_insertBlock h.ascending (hsize u hroom)
    (fun c hc => hsize c (h.room c hc)) hu, fun c hc => ?_, fun c hc => ?_, fun c hc => ?_⟩
  all_goals rcases mem_insertBlock.1 hc with rfl | hc
  · exact hroom
  · exact h.room c hc
  · exact hpos
  · exact h.nonnull c hc
  · exact h8
  · exact h.aligned c hc

theorem lastAddr_concat : lastAddr (pre ++ [b]) = b.addr := by
  rw [lastAddr, getLast?_concat]
  rfl

theorem eq_nil_of_lastAddr (h : ∀ b ∈ pre, 0 < b.addr) (hp : lastAddr pre = 0) : pre = [] := by
  rcases eq_nil_or_concat pre with rfl | ⟨init, b, rfl⟩
  · rfl
  rw [concat_eq_append, lastAddr_concat] at hp
  have := h b (by simp)
  omega

end

end Ristux.Memory
