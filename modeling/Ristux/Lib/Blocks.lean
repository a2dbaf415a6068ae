import Mathlib.Data.List.Basic
import Mathlib.Order.Nat

-- A block is a run of addresses. A list of blocks in the order of their addresses may have
-- neighbours that touch; `merge` joins these, covers the same addresses and leaves a gap between
-- any two blocks.

namespace Ristux.Lib
open List

structure Block where
  addr : ℕ
  size : ℕ
  deriving Repr, DecidableEq

namespace Block

def stop (b : Block) : ℕ := b.addr + b.size

def Has (b : Block) (x : ℕ) : Prop := b.addr ≤ x ∧ x < b.stop

/-- No address is in both. -/
def Apart (b c : Block) : Prop := b.stop ≤ c.addr ∨ c.stop ≤ b.addr

variable {b c : Block} {x : ℕ} {l : List Block}

theorem Apart.symm (h : b.Apart c) : c.Apart b := Or.symm h

theorem Apart.ne (h : b.Apart c) (hx : b.Has x) (hy : c.Has y) : x ≠ y := by
  rintro rfl
  obtain ⟨hx₁, hx₂⟩ := hx
  obtain ⟨hy₁, hy₂⟩ := hy
  rcases h with h | h <;> omega

theorem apart_of_disjoint (hb : 0 < b.size) (hc : 0 < c.size) (h : ∀ x, b.Has x → ¬ c.Has x) :
    b.Apart c := by
  have h₁ := h b.addr
  have h₂ := h c.addr
  simp only [Has, Apart, stop] at *
  omega

end Block

def Covers (l : List Block) (x : ℕ) : Prop := ∃ b ∈ l, b.Has x

theorem covers_cons : Covers (b :: l) x ↔ b.Has x ∨ Covers l x := by simp [Covers]

theorem covers_append : Covers (l ++ m) x ↔ Covers l x ∨ Covers m x := by
  simp only [Covers, mem_append, or_and_right, exists_or]

/-- In the order of the addresses. -/
def Ascending (l : List Block) : Prop := l.Pairwise fun a b => a.stop ≤ b.addr

/-- In the order of the addresses, and no block ends where another starts. -/
def Gapped (l : List Block) : Prop := l.Pairwise fun a b => a.stop < b.addr

theorem Gapped.ascending (h : Gapped l) : Ascending l :=
  Pairwise.imp (fun hab => Nat.le_of_lt hab) h

/-- A block of the list cut into pieces. -/
theorem Gapped.cut (h : Gapped (pre ++ b :: l)) (hpieces : Gapped pieces)
    (hin : ∀ c ∈ pieces, b.addr ≤ c.addr ∧ c.stop ≤ b.stop) : Gapped (pre ++ (pieces ++ l)) := by
  simp only [Gapped, pairwise_append, pairwise_cons, mem_append, mem_cons] at h ⊢
  obtain ⟨hpre, ⟨hb, hl⟩, hcross⟩ := h
  refine ⟨hpre, ⟨hpieces, hl, fun c hc d hd => ?_⟩, fun a ha c hc => ?_⟩
  · exact Nat.lt_of_le_of_lt (hin c hc).2 (hb d hd)
  rcases hc with hc | hc
  · exact Nat.lt_of_lt_of_le (hcross a ha b (.inl rfl)) (hin c hc).1
  · exact hcross a ha c (.inr hc)

def insertBlock (b : Block) : List Block → List Block
  | [] => [b]
  | c :: l => if b.addr < c.addr then b :: c :: l else c :: insertBlock b l

/-- Joins blocks that touch, starting with `c`. -/
def mergeFrom (c : Block) : List Block → List Block
  | [] => [c]
  | n :: l => if c.stop = n.addr then mergeFrom ⟨c.addr, c.size + n.size⟩ l else c :: mergeFrom n l

def merge : List Block → List Block
  | [] => []
  | c :: l => mergeFrom c l

section
variable {b c : Block} {l : List Block} {x : ℕ}

theorem mem_insertBlock : d ∈ insertBlock b l ↔ d = b ∨ d ∈ l := by
  induction l with
  | nil => simp [insertBlock]
  | cons c l ih =>
    rw [insertBlock]
    split_ifs
    · simp
    · simp only [mem_cons, ih]
      exact or_left_comm

theorem covers_insertBlock : Covers (insertBlock b l) x ↔ b.Has x ∨ Covers l x := by
  simp only [Covers, mem_insertBlock, or_and_right, exists_or, exists_eq_left]

theorem ascending_insertBlock (h : Ascending l) (hb : 0 < b.size) (hl : ∀ c ∈ l, 0 < c.size)
    (hapart : ∀ c ∈ l, b.Apart c) : Ascending (insertBlock b l) := by
  induction l with
  | nil => exact pairwise_singleton _ _
  | cons c l ih =>
    obtain ⟨hfirst, hrest⟩ := pairwise_cons.1 h
    have hbc := hapart c mem_cons_self
    rw [Block.Apart, Block.stop, Block.stop] at hbc
    rw [insertBlock]
    split_ifs with hlt
    · refine pairwise_cons.2 ⟨fun d hd => ?_, h⟩
      rw [Block.stop]
      rcases mem_cons.1 hd with rfl | hd
      · omega
      have := hfirst d hd
      rw [Block.stop] at this
      omega
    refine pairwise_cons.2 ⟨fun d hd => ?_, ih hrest
      (forall_mem_cons.1 hl).2
      (forall_mem_cons.1 hapart).2⟩
    rcases mem_insertBlock.1 hd with rfl | hd
    · rw [Block.stop]
      omega
    · exact hfirst d hd

theorem has_join (h : b.stop = c.addr) :
    (⟨b.addr, b.size + c.size⟩ : Block).Has x ↔ b.Has x ∨ c.Has x := by
  simp only [Block.Has, Block.stop] at h ⊢
  omega

theorem covers_mergeFrom : Covers (mergeFrom c l) x ↔ c.Has x ∨ Covers l x := by
  induction l generalizing c with
  | nil => simp [mergeFrom, Covers]
  | cons n l ih =>
    rw [mergeFrom, covers_cons]
    split_ifs with htouch
    · rw [ih, has_join htouch, or_assoc]
    · rw [covers_cons, ih]

/-- Every block of the result starts where one of the blocks did and is no smaller. -/
theorem addr_of_mem_mergeFrom (hb : b ∈ mergeFrom c l) :
    ∃ d ∈ c :: l, b.addr = d.addr ∧ d.size ≤ b.size := by
  induction l generalizing c with
  | nil =>
    obtain rfl := mem_singleton.1 hb
    exact ⟨b, mem_cons_self, rfl, le_rfl⟩
  | cons n l ih =>
    rw [mergeFrom] at hb
    split_ifs at hb
    · obtain ⟨d, hd, haddr, hsize⟩ := ih hb
      rcases mem_cons.1 hd with rfl | hd
      · exact ⟨c, mem_cons_self, haddr, le_trans (Nat.le_add_right _ _) hsize⟩
      · exact ⟨d, mem_cons_of_mem _ (mem_cons_of_mem _ hd), haddr, hsize⟩
    rcases mem_cons.1 hb with rfl | hb
    · exact ⟨b, mem_cons_self, rfl, le_rfl⟩
    · obtain ⟨d, hd, haddr, hsize⟩ := ih hb
      exact ⟨d, mem_cons_of_mem _ hd, haddr, hsize⟩

theorem gapped_mergeFrom (h : Ascending (c :: l)) : Gapped (mergeFrom c l) := by
  induction l generalizing c with
  | nil => exact pairwise_singleton _ _
  | cons n l ih =>
    obtain ⟨hfirst, hrest⟩ := pairwise_cons.1 h
    obtain ⟨hnext, htail⟩ := pairwise_cons.1 hrest
    rw [mergeFrom]
    split_ifs with htouch
    · refine ih (pairwise_cons.2 ⟨fun d hd => ?_, htail⟩)
      have hstop : Block.stop ⟨c.addr, c.size + n.size⟩ = n.stop := by
        simp only [Block.stop] at htouch ⊢
        omega
      rw [hstop]
      exact hnext d hd
    refine pairwise_cons.2 ⟨fun d hd => ?_, ih hrest⟩
    have hle := hfirst n mem_cons_self
    obtain ⟨e, he, haddr, -⟩ := addr_of_mem_mergeFrom hd
    rcases mem_cons.1 he with rfl | he
    · omega
    have := hnext e he
    simp only [Block.stop] at this hle htouch ⊢
    omega

theorem covers_merge : Covers (merge l) x ↔ Covers l x := by
  cases l with
  | nil => rfl
  | cons c l => rw [merge, covers_mergeFrom, covers_cons]

theorem addr_of_mem_merge (hb : b ∈ merge l) : ∃ d ∈ l, b.addr = d.addr ∧ d.size ≤ b.size := by
  cases l with
  | nil => cases hb
  | cons c l => exact addr_of_mem_mergeFrom hb

theorem gapped_merge (h : Ascending l) : Gapped (merge l) := by
  cases l with
  | nil => exact Pairwise.nil
  | cons c l => exact gapped_mergeFrom h

/-- Blocks with gaps that cover one run of addresses. -/
theorem eq_singleton_of_covers (h : Gapped l) (hl : ∀ c ∈ l, 0 < c.size)
    (hsize : 0 < size) (hcov : ∀ x, Covers l x ↔ start ≤ x ∧ x < start + size) :
    l = [⟨start, size⟩] := by
  cases l with
  | nil =>
    obtain ⟨b, hb, -⟩ := (hcov start).2 ⟨le_rfl, by omega⟩
    cases hb
  | cons c l =>
    obtain ⟨hfirst, -⟩ := pairwise_cons.1 h
    have hc := hl c mem_cons_self
    have hstart := (hcov c.addr).1 ⟨c, mem_cons_self, le_rfl, by rw [Block.stop]; omega⟩
    have hlast := (hcov (c.stop - 1)).1
      ⟨c, mem_cons_self, by rw [Block.stop]; omega, by rw [Block.stop]; omega⟩
    -- The first address of the run is in the first block.
    have haddr : c.addr = start := by
      obtain ⟨d, hd, hd₁, -⟩ := (hcov start).2 ⟨le_rfl, by omega⟩
      rcases mem_cons.1 hd with rfl | hd
      · omega
      have := hfirst d hd
      omega
    -- The address after the first block is in no other.
    have hstop : c.stop = start + size := by
      by_contra hne
      obtain ⟨d, hd, hd₁, hd₂⟩ := (hcov c.stop).2 (by
        omega)
      rcases mem_cons.1 hd with rfl | hd
      · omega
      · have := hfirst d hd
        omega
    have hrest : l = [] := by
      by_contra hne
      obtain ⟨d, l', rfl⟩ := exists_cons_of_ne_nil hne
      have hd := hl d (by simp)
      have hlt := hfirst d (by simp)
      have := (hcov d.addr).1 ⟨d, by simp, le_rfl, by rw [Block.stop]; omega⟩
      omega
    rw [hrest]
    obtain ⟨a, s⟩ := c
    simp only [Block.stop] at haddr hstop
    obtain rfl := haddr
    obtain rfl : s = size := by omega
    rfl

end

end Ristux.Lib
