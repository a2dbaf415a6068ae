import Ristux.Memory.HeapList

-- A run allocates, gives blocks back and, between these, writes to the blocks it holds. After any
-- run the free blocks and the blocks in use tile the region.

namespace Ristux.Memory
open List Nat

open Lib

/-- A pointer that was returned, and what was asked for. -/
structure Held where
  ptr : ℕ
  layout : Layout

namespace Heap

/-- The block behind a pointer, as its header says. -/
def blockOf (h : Heap) (a : Held) : Block :=
  ⟨a.ptr - headerSize, h.sizeOf (a.ptr - headerSize)⟩

/-- The states a heap that starts with the region comes through, with the pointers that are
held. The memory may be written where a pointer that is held points to. -/
inductive Run (start size : ℕ) : Heap → List Held → Prop
  | init (h : Heap) : Run start size (h.initFreeList start size) []
  | alloc {h h' : Heap} {held : List Held} {layout : Layout} {ptr : ℕ}
      (hrun : Run start size h held)
      (hret : Returns (fun fuel => h.allocFromFreeList fuel layout) (ptr, h')) :
      Run start size h' (if ptr = 0 then held else ⟨ptr, layout⟩ :: held)
  | dealloc {h h' : Heap} {l₁ l₂ : List Held} {a : Held} (hrun : Run start size h (l₁ ++ a :: l₂))
      (hret : Returns (fun fuel => h.deallocToFreeList fuel a.ptr) h') :
      Run start size h' (l₁ ++ l₂)
  | store {h : Heap} {held : List Held} {mem : ℕ → ℕ} (hrun : Run start size h held)
      (hmem : ∀ x, mem x ≠ h.mem x → ∃ a ∈ held, a.ptr ≤ x ∧ x < a.ptr + a.layout.size) :
      Run start size { h with mem := mem } held

/-- The blocks of the free list and those in use are apart and tile the region. -/
structure Tiled (start size : ℕ) (h : Heap) (free : List Block) (held : List Held) : Prop where
  holds : h.Holds free
  gapped : Gapped free
  room : ∀ b ∈ free, headerSize ≤ b.size ∧ 8 ∣ b.addr
  usable : ∀ a ∈ held, headerSize ≤ a.ptr ∧ 8 ∣ a.ptr ∧ a.layout.align ∣ a.ptr ∧
    headerSize + a.layout.size ≤ (h.blockOf a).size
  heldApart : held.Pairwise fun a b => (h.blockOf a).Apart (h.blockOf b)
  freeApart : ∀ a ∈ held, ∀ c ∈ free, (h.blockOf a).Apart c
  tile : ∀ x, Covers (free ++ held.map h.blockOf) x ↔ start ≤ x ∧ x < start + size

section
variable {start size : ℕ} {h h' : Heap}

theorem Block.has_addr {b : Block} (hb : headerSize ≤ b.size) :
    b.Has b.addr ∧ b.Has (b.addr + 8) := by
  simp only [Block.Has, Block.stop, headerSize] at *
  omega

theorem blockOf_congr (hmem : h'.mem (h.blockOf a).addr = h.mem (h.blockOf a).addr) :
    h'.blockOf a = h.blockOf a := by
  exact congrArg _ hmem

section
variable (ht : Tiled start size h free held)
include ht

/-- A block in the region. -/
theorem Tiled.within (hb : b ∈ free ++ held.map h.blockOf) (hroom : 0 < b.size) :
    start ≤ b.addr ∧ b.stop ≤ start + size := by
  have h₁ := (ht.tile b.addr).1 ⟨b, hb, le_rfl, by rw [Block.stop]; omega⟩
  have h₂ := (ht.tile (b.stop - 1)).1
    ⟨b, hb, by rw [Block.stop]; omega, by rw [Block.stop]; omega⟩
  omega

theorem Tiled.roomy (hpos : 0 < start) : Roomy free where
  ascending := ht.gapped.ascending
  room b hb := (ht.room b hb).1
  nonnull b hb := by
    have hroom : 0 < b.size := lt_of_lt_of_le (by decide) (ht.room b hb).1
    have := ht.within (mem_append_left _ hb) hroom
    omega
  aligned b hb := (ht.room b hb).2

theorem Tiled.held_room (ha : a ∈ held) : headerSize ≤ (h.blockOf a).size :=
  le_trans (le_add_right _ _) (ht.usable a ha).2.2.2

/-- The address of a block in use is in no free block. -/
theorem Tiled.not_covers (ha : a ∈ held) (hx : (h.blockOf a).Has x) : ¬ Covers free x := by
  rintro ⟨c, hc, hcx⟩
  exact (ht.freeApart a ha c hc).ne hx hcx rfl

end

theorem holds_init (h : Heap) (hpos : 0 < start) :
    (h.initFreeList start size).Holds [⟨start, size⟩] := by
  constructor
  · refine ⟨rfl, hpos.ne', ?_⟩
    change nextOf _ start = 0
    rw [nextOf, initFreeList, mem_setNext, if_pos rfl]
  intro b hb
  rw [mem_singleton.1 hb, sizeOf, initFreeList, mem_setNext, mem_setSize,
    if_neg (by simp), if_pos rfl]

theorem tiled_init (h : Heap) (h8 : 8 ∣ start) (hpos : 0 < start) (hsize : headerSize ≤ size) :
    Tiled start size (h.initFreeList start size) [⟨start, size⟩] [] where
  holds := holds_init h hpos
  gapped := pairwise_singleton _ _
  room b hb := by
    rw [mem_singleton.1 hb]
    exact ⟨hsize, h8⟩
  usable := nofun
  heldApart := Pairwise.nil
  freeApart := nofun
  tile x := by simp [Covers, Block.Has, Block.stop]

theorem Tiled.alloc
    (ht : Tiled start size h free held) (hfrom : layout.allocFrom free = some (u, free'))
    (hholds : h'.Holds free') (hused : h'.sizeOf u.addr = u.size)
    (hframe : ∀ x, ¬ Covers free x → h'.mem x = h.mem x) :
    Tiled start size h' free' (⟨u.addr + headerSize, layout⟩ :: held) := by
  obtain ⟨⟨hu8, halign, hroom⟩, hgapped, hfree', hapart, hcov⟩ :=
    Layout.allocFrom_spec ht.gapped (fun b hb => (ht.room b hb).2) hfrom
  have hkeep : ∀ a ∈ held, h'.blockOf a = h.blockOf a := fun a ha =>
    blockOf_congr (hframe _ (ht.not_covers ha (Block.has_addr (ht.held_room ha)).1))
  have hu : h'.blockOf ⟨u.addr + headerSize, layout⟩ = u := by
    rw [blockOf, Nat.add_sub_cancel, hused]
  have hroom' : ∀ c ∈ free', headerSize ≤ c.size ∧ 8 ∣ c.addr := by
    intro c hc
    rcases hfree' c hc with hc | hc
    · exact ht.room c hc
    · exact hc
  -- No point of a block in use is in what was free.
  have hfar : ∀ a ∈ held, ∀ c : Block, headerSize ≤ c.size → (∀ x, c.Has x → Covers free x) →
      (h.blockOf a).Apart c := by
    intro a ha c hc hsub
    refine Block.apart_of_disjoint ?_ ?_ fun x hx hcx => ht.not_covers ha hx (hsub x hcx)
    · exact lt_of_lt_of_le (by decide) (ht.held_room ha)
    · exact lt_of_lt_of_le (by decide) hc
  refine ⟨hholds, hgapped, hroom', fun a ha => ?_, ?_, fun a ha c hc => ?_, fun x => ?_⟩
  · rcases mem_cons.1 ha with rfl | ha
    · rw [hu]
      exact ⟨le_add_left _ _, Nat.dvd_add hu8 (by decide), halign, hroom⟩
    · rw [hkeep a ha]
      exact ht.usable a ha
  · refine pairwise_cons.2 ⟨fun a ha => ?_, ?_⟩
    · rw [hu, hkeep a ha]
      exact (hfar a ha u (by omega) fun x hx => (hcov x).2 (.inl hx)).symm
    refine ht.heldApart.imp_of_mem fun ha hb hab => ?_
    rw [hkeep _ ha, hkeep _ hb]
    exact hab
  · rcases mem_cons.1 ha with rfl | ha
    · rw [hu]
      exact hapart c hc
    · rw [hkeep a ha]
      exact hfar a ha c (hroom' c hc).1 fun x hx => (hcov x).2 (.inr ⟨c, hc, hx⟩)
  · rw [map_cons, hu, map_congr_left hkeep, ← ht.tile x, covers_append, covers_cons,
      covers_append, hcov]
    tauto

/-- A block in use may be put back among the free ones. -/
theorem Tiled.insert (ht : Tiled start size h free held) (hpos : 0 < start) (ha : a ∈ held) :
    Roomy (insertBlock (h.blockOf a) free) := by
  obtain ⟨hptr, h8, -⟩ := ht.usable a ha
  have hroom := ht.held_room ha
  have hin := ht.within (mem_append_right _ (mem_map_of_mem ha))
    (lt_of_lt_of_le (by decide) hroom)
  refine (ht.roomy hpos).insertBlock (ht.freeApart a ha) hroom (by omega) ?_
  exact dvd_sub h8 (by decide)

section
variable (ht : Tiled start size h free (l₁ ++ a :: l₂))
include ht

/-- A block in use is apart from the others. -/
theorem Tiled.apart_removed (hb : b ∈ l₁ ++ l₂) : (h.blockOf b).Apart (h.blockOf a) := by
  have hpair := ht.heldApart
  rw [pairwise_append, pairwise_cons] at hpair
  rcases mem_append.1 hb with hb | hb
  · exact hpair.2.2 b hb a mem_cons_self
  · exact (hpair.2.1.1 b hb).symm

theorem Tiled.dealloc (hpos : 0 < start) (hholds : h'.Holds (merge (insertBlock (h.blockOf a) free)))
    (hframe : ∀ x, ¬ Covers (h.blockOf a :: free) x → h'.mem x = h.mem x) :
    Tiled start size h' (merge (insertBlock (h.blockOf a) free)) (l₁ ++ l₂) := by
  have ha : a ∈ l₁ ++ a :: l₂ := by simp
  have hsub : ∀ b ∈ l₁ ++ l₂, b ∈ l₁ ++ a :: l₂ := by
    intro b hb
    rcases mem_append.1 hb with hb | hb <;> simp [hb]
  have hinsert := ht.insert hpos ha
  -- No point of another block is in what is free now.
  have hfar : ∀ b ∈ l₁ ++ l₂, ∀ x, (h.blockOf b).Has x → ¬ Covers (h.blockOf a :: free) x := by
    intro b hb x hx hcov
    rcases covers_cons.1 hcov with hax | hcov
    · exact (ht.apart_removed hb).ne hx hax rfl
    · exact ht.not_covers (hsub b hb) hx hcov
  have hkeep : ∀ b ∈ l₁ ++ l₂, h'.blockOf b = h.blockOf b := fun b hb =>
    blockOf_congr (hframe _ (hfar b hb _ (Block.has_addr (ht.held_room (hsub b hb))).1))
  have hcov : ∀ x, Covers (merge (insertBlock (h.blockOf a) free)) x ↔
      Covers (h.blockOf a :: free) x := fun x => by
    rw [covers_merge, covers_insertBlock, covers_cons]
  have hroom : ∀ c ∈ merge (insertBlock (h.blockOf a) free), headerSize ≤ c.size ∧ 8 ∣ c.addr := by
    intro c hc
    obtain ⟨d, hd, haddr, hle⟩ := addr_of_mem_merge hc
    exact ⟨(hinsert.room d hd).trans hle, haddr ▸ hinsert.aligned d hd⟩
  refine ⟨hholds, gapped_merge hinsert.ascending, hroom, fun b hb => ?_, ?_,
    fun b hb c hc => ?_, fun x => ?_⟩
  · rw [hkeep b hb]
    exact ht.usable b (hsub b hb)
  · have hpair : (l₁ ++ l₂).Pairwise fun a b => (h.blockOf a).Apart (h.blockOf b) :=
      ht.heldApart.sublist (Sublist.append_left (sublist_cons_self a l₂) l₁)
    refine hpair.imp_of_mem fun hb hc hbc => ?_
    rw [hkeep _ hb, hkeep _ hc]
    exact hbc
  · rw [hkeep b hb]
    refine Block.apart_of_disjoint ?_ ?_ fun x hx hcx =>
      hfar b hb x hx ((hcov x).1 ⟨c, hc, hcx⟩)
    · exact lt_of_lt_of_le (by decide) (ht.held_room (hsub b hb))
    · exact Nat.lt_of_lt_of_le (by decide) (hroom c hc).1
  · rw [map_congr_left hkeep, ← ht.tile x, covers_append, hcov, map_append, map_append, map_cons]
    simp only [covers_append, covers_cons]
    tauto

omit ht in
theorem Tiled.store {mem : ℕ → ℕ} (ht : Tiled start size h free held)
    (hmem : ∀ x, mem x ≠ h.mem x → ∃ a ∈ held, a.ptr ≤ x ∧ x < a.ptr + a.layout.size) :
    Tiled start size { h with mem := mem } free held := by
  have hin : ∀ x, mem x ≠ h.mem x →
      ∃ a ∈ held, (h.blockOf a).addr + headerSize ≤ x ∧ (h.blockOf a).Has x := by
    intro x hx
    obtain ⟨a, ha, hptr, hlt⟩ := hmem x hx
    obtain ⟨h16, -, -, hroom⟩ := ht.usable a ha
    refine ⟨a, ha, ?_⟩
    have haddr : (h.blockOf a).addr = a.ptr - headerSize := rfl
    rw [Block.Has, Block.stop]
    omega
  -- Headers are not written.
  have hkeep : ∀ a ∈ held, blockOf { h with mem := mem } a = h.blockOf a := by
    intro a ha
    refine blockOf_congr (by_contra fun hne => ?_)
    obtain ⟨b, hb, hle, hhas⟩ := hin _ hne
    obtain ⟨l₁, l₂, rfl⟩ := append_of_mem ha
    by_cases hab : b ∈ l₁ ++ l₂
    · exact (ht.apart_removed hab).ne hhas (Block.has_addr (ht.held_room ha)).1 rfl
    obtain rfl : b = a := by
      simp only [mem_append, mem_cons] at hb hab
      tauto
    simp only [headerSize] at hle
    omega
  have hholds : Holds { h with mem := mem } free := by
    refine ht.holds.frame rfl fun c hc => ?_
    have hfree : ∀ x, c.Has x → mem x = h.mem x := fun x hx => by_contra fun hne => by
      obtain ⟨a, ha, -, hhas⟩ := hin x hne
      exact ht.not_covers ha hhas ⟨c, hc, hx⟩
    have hc := Block.has_addr (ht.room c hc).1
    exact ⟨hfree _ hc.1, hfree _ hc.2⟩
  refine ⟨hholds, ht.gapped, ht.room, fun a ha => ?_, ?_, fun a ha c hc => ?_, fun x => ?_⟩
  · rw [hkeep a ha]
    exact ht.usable a ha
  · refine ht.heldApart.imp_of_mem fun ha hb hab => ?_
    rw [hkeep _ ha, hkeep _ hb]
    exact hab
  · rw [hkeep a ha]
    exact ht.freeApart a ha c hc
  · rw [map_congr_left hkeep]
    exact ht.tile x

omit ht in
/-- An allocation returns, and leaves the region tiled. -/
theorem Tiled.returns_alloc (ht : Tiled start size h free held) (hpos : 0 < start) (layout : Layout) :
    ∃ r free', Returns (fun fuel => h.allocFromFreeList fuel layout) r ∧
      Tiled start size r.2 free' (if r.1 = 0 then held else ⟨r.1, layout⟩ :: held) := by
  obtain ⟨hnone, hsome⟩ := allocLoop_spec layout [] (ht.roomy hpos) ht.holds
  cases hfrom : layout.allocFrom free with
  | none =>
    refine ⟨(0, h), free, hnone hfrom, ?_⟩
    exact ht
  | some r =>
    obtain ⟨h', hret, hholds, hused, hframe⟩ := hsome r.1 r.2 hfrom
    refine ⟨_, r.2, hret, ?_⟩
    exact ht.alloc hfrom hholds hused hframe

theorem Tiled.returns_dealloc (hpos : 0 < start) :
    ∃ h' free', Returns (fun fuel => h.deallocToFreeList fuel a.ptr) h' ∧
    Tiled start size h' free' (l₁ ++ l₂) := by
  have ha : a ∈ l₁ ++ a :: l₂ := by simp
  obtain ⟨hptr, h8, -⟩ := ht.usable a ha
  have hroom := ht.held_room ha
  have hin := ht.within (mem_append_right _ (mem_map_of_mem ha))
    (lt_of_lt_of_le (by decide) hroom)
  obtain ⟨h', hret, hholds, hframe⟩ := deallocToFreeList_spec (ht.roomy hpos) ht.holds
    (ht.freeApart a ha) hroom (by omega) (dvd_sub h8 (by decide)) rfl
  refine ⟨h', _, ?_, ht.dealloc hpos hholds hframe⟩
  rwa [show (h.blockOf a).addr + headerSize = a.ptr from Nat.sub_add_cancel hptr] at hret

end

theorem Run.tiled (h8 : 8 ∣ start) (hpos : 0 < start) (hsize : headerSize ≤ size)
    (hrun : Run start size h held) : ∃ free, Tiled start size h free held := by
  induction hrun with
  | init h => exact ⟨_, tiled_init h h8 hpos hsize⟩
  | alloc hrun hret ih =>
    obtain ⟨free, ht⟩ := ih
    obtain ⟨r, free', hret', ht'⟩ := ht.returns_alloc hpos _
    obtain rfl := hret.unique hret'
    exact ⟨free', ht'⟩
  | dealloc hrun hret ih =>
    obtain ⟨free, ht⟩ := ih
    obtain ⟨h', free', hret', ht'⟩ := ht.returns_dealloc hpos
    obtain rfl := hret.unique hret'
    exact ⟨free', ht'⟩
  | store hrun hmem ih =>
    obtain ⟨free, ht⟩ := ih
    exact ⟨free, ht.store hmem⟩

/-- A region with no room for a header is never used. -/
theorem Run.tooSmall (hpos : 0 < start) (hsize : size < headerSize) (hrun : Run start size h held) :
    held = [] ∧ h.Holds [⟨start, size⟩] ∧
      ∀ layout, Returns (fun fuel => h.allocFromFreeList fuel layout) (0, h) := by
  -- The walk ends after the one block.
  have hret : ∀ h : Heap, h.Holds [⟨start, size⟩] → ∀ layout,
      Returns (fun fuel => h.allocFromFreeList fuel layout) (0, h) := by
    intro h hh layout
    obtain ⟨hhead, -, hnext⟩ := hh.linked
    have hfit : ¬ allocStartIn start layout.align - start +
        alignUp (headerSize + layout.size) freeBlockAlign ≤ size := by
      have : headerSize + layout.size ≤ alignUp (headerSize + layout.size) freeBlockAlign :=
        le_alignUp (by decide)
      omega
    have hend : Returns (fun fuel => allocLoop layout fuel h start (h.nextOf start)) (0, h) := by
      rw [hnext]
      exact Returns.stop fun fuel => rfl
    refine hend.step fun fuel => ?_
    rw [allocFromFreeList, hhead, allocLoop, if_neg hpos.ne', hh.sizes ⟨start, size⟩ (by simp)]
    exact if_neg hfit
  have hinv : held = [] ∧ h.Holds [⟨start, size⟩] := by
    induction hrun with
    | init h => exact ⟨rfl, holds_init h hpos⟩
    | alloc hrun hret' ih =>
      obtain ⟨rfl, hh⟩ := ih
      obtain ⟨rfl, rfl⟩ := Prod.mk.inj (hret'.unique (hret _ hh _))
      exact ⟨rfl, hh⟩
    | dealloc hrun _ ih => exact absurd ih.1 (by simp)
    | @store h held mem hrun hmem ih =>
      obtain ⟨rfl, hh⟩ := ih
      have hsame : ∀ x, mem x = h.mem x := fun x => by_contra fun hne => by
        obtain ⟨a, ha, -⟩ := hmem x hne
        cases ha
      exact ⟨rfl, hh.frame rfl fun c _ => ⟨hsame _, hsame _⟩⟩
  exact ⟨hinv.1, hinv.2, hret h hinv.2⟩

end

/-- What holds after a run. -/
structure Correct (start size : ℕ) (h : Heap) (free : List Block) (held : List Held) : Prop where
  holds : h.Holds free
  aligned : ∀ a ∈ held, a.layout.align ∣ a.ptr
  within : ∀ a ∈ held, start ≤ (h.blockOf a).addr ∧ (h.blockOf a).stop ≤ start + size
  large : ∀ a ∈ held, (h.blockOf a).addr + headerSize = a.ptr ∧
    a.ptr + a.layout.size ≤ (h.blockOf a).stop
  heldApart : held.Pairwise fun a b => (h.blockOf a).Apart (h.blockOf b)
  freeApart : ∀ a ∈ held, ∀ c ∈ free, (h.blockOf a).Apart c
  gapped : Gapped free
  tile : ∀ x, Covers (free ++ held.map h.blockOf) x ↔ start ≤ x ∧ x < start + size
  whole : held = [] → free = [⟨start, size⟩]
  allocReturns : ∀ layout, ∃ r, Returns (fun fuel => h.allocFromFreeList fuel layout) r
  deallocReturns : ∀ a ∈ held, ∃ h', Returns (fun fuel => h.deallocToFreeList fuel a.ptr) h'

theorem heap_tiles_region {start size : ℕ} {h : Heap} {held : List Held} (h8 : 8 ∣ start)
    (hpos : 0 < start) (hrun : Run start size h held) : ∃ free, Correct start size h free held := by
  by_cases hsize : headerSize ≤ size
  · obtain ⟨free, ht⟩ := hrun.tiled h8 hpos hsize
    refine ⟨free, ht.holds, fun a ha => (ht.usable a ha).2.2.1, fun a ha => ?_, fun a ha => ?_,
      ht.heldApart, ht.freeApart, ht.gapped, ht.tile, ?_, fun layout => ?_, fun a ha => ?_⟩
    · exact ht.within (mem_append_right _ (mem_map_of_mem ha))
        (lt_of_lt_of_le (by decide) (ht.held_room ha))
    · obtain ⟨hptr, -, -, hroom⟩ := ht.usable a ha
      have haddr : (h.blockOf a).addr + headerSize = a.ptr := Nat.sub_add_cancel hptr
      refine ⟨haddr, ?_⟩
      rw [Block.stop]
      omega
    · rintro rfl
      refine eq_singleton_of_covers ht.gapped ?_ (lt_of_lt_of_le (by decide) hsize) ?_
      · exact fun c hc => lt_of_lt_of_le (by decide) (ht.room c hc).1
      · intro x
        rw [← ht.tile x, map_nil, append_nil]
    · obtain ⟨r, -, hret, -⟩ := ht.returns_alloc hpos layout
      exact ⟨r, hret⟩
    · obtain ⟨l₁, l₂, rfl⟩ := append_of_mem ha
      obtain ⟨h', -, hret, -⟩ := ht.returns_dealloc hpos
      exact ⟨h', hret⟩
  · obtain ⟨rfl, hh, hret⟩ := hrun.tooSmall hpos (Nat.lt_of_not_le hsize)
    refine ⟨[⟨start, size⟩], hh, forall_mem_nil _, forall_mem_nil _, forall_mem_nil _, Pairwise.nil,
      forall_mem_nil _, pairwise_singleton _ _, fun x => ?_, fun _ => rfl,
      fun layout => ⟨_, hret layout⟩, forall_mem_nil _⟩
    simp [Covers, Block.Has, Block.stop]

/-- An allocation from the first block of the list. -/
theorem returns_first {h : Heap} {layout : Layout} {current start size : ℕ}
    (hhead : h.head = current) (hnull : current ≠ 0)
    (hstart : allocStartIn current layout.align = start)
    (hsize : alignUp (headerSize + layout.size) freeBlockAlign = size)
    (hfits : start - current + size ≤ h.sizeOf current) :
    Returns (fun fuel => h.allocFromFreeList fuel layout)
      (start + headerSize, (h.carve 0 current start size).2) := by
  refine Returns.stop fun fuel => ?_
  rw [allocFromFreeList, hhead, allocLoop, if_neg hnull, hstart, hsize]
  exact if_pos hfits

/-- Of two blocks the first is given back. -/
theorem heap_tiles_region_freed : ∃ h free, Correct 8 128 h free [⟨48, ⟨8, 8, 3, rfl⟩⟩] := by
  let layout : Layout := ⟨8, 8, 3, rfl⟩
  let h₀ := initFreeList ⟨0, fun _ => 0⟩ 8 128
  let h₁ := (h₀.carve 0 8 8 24).2
  have hfirst : Returns (fun fuel => h₀.allocFromFreeList fuel layout) (24, h₁) :=
    returns_first rfl (by decide) (by decide) (by decide) (by decide)
  have hsecond : Returns (fun fuel => h₁.allocFromFreeList fuel layout)
      (48, (h₁.carve 0 32 32 24).2) :=
    returns_first rfl (by decide) (by decide) (by decide) (by decide)
  have hrun : Run 8 128 (h₁.carve 0 32 32 24).2 ([⟨48, layout⟩] ++ ⟨24, layout⟩ :: []) :=
    Run.alloc (Run.alloc (Run.init ⟨0, fun _ => 0⟩) hfirst) hsecond
  obtain ⟨free, hcorrect⟩ := heap_tiles_region (by decide) (by decide) hrun
  obtain ⟨h, hfree⟩ := hcorrect.deallocReturns ⟨24, layout⟩ (by simp)
  exact ⟨h, heap_tiles_region (by decide) (by decide) (hrun.dealloc hfree)⟩

end Heap

end Ristux.Memory
