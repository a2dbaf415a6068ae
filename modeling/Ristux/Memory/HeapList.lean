import Ristux.Memory.HeapBlocks
import Ristux.Lib.Fuel

-- What the walks along the linked list do, in terms of the list of free blocks they walk along.

namespace Ristux.Memory
open List Option Layout

open Lib

/-- The free blocks of the heap. -/
structure Heap.Holds (h : Heap) (free : List Block) : Prop where
  linked : Linked h.nextOf 0 h.head (free.map Block.addr)
  sizes : ∀ b ∈ free, h.sizeOf b.addr = b.size

namespace Heap

section
variable {h : Heap} {layout : Layout} {prev : ℕ}

/-- The words that carving a block changes: those in the block and the link to it. -/
theorem carve_spec (hb : 8 ∣ b.addr) (hroom : headerSize ≤ b.size) (hfit : layout.fits b)
    (hsize : h.sizeOf b.addr = b.size)
    (hprev : prev ≠ 0 → prev + headerSize ≤ b.addr ∨ b.stop ≤ prev) :
    let r := h.carve prev b.addr (layout.place b) layout.allocSize
    let link := if headerSize ≤ layout.remainder b then (layout.used b).stop else h.nextOf b.addr
    r.1 = (layout.used b).addr + headerSize ∧
      r.2.sizeOf (layout.used b).addr = (layout.used b).size ∧
      (headerSize ≤ layout.remainder b → r.2.sizeOf (layout.used b).stop = layout.remainder b ∧
        r.2.nextOf (layout.used b).stop = h.nextOf b.addr) ∧
      (headerSize ≤ layout.before b → r.2.sizeOf b.addr = layout.before b ∧
        r.2.nextOf b.addr = link ∧ r.2.head = h.head ∧
        ∀ x, ¬ b.Has x → r.2.mem x = h.mem x) ∧
      (¬ headerSize ≤ layout.before b → r.2.head = (if prev = 0 then link else h.head) ∧
        (prev ≠ 0 → r.2.nextOf prev = link) ∧
        ∀ x, ¬ b.Has x → (prev ≠ 0 → x ≠ prev + 8) → r.2.mem x = h.mem x) := by
  obtain ⟨-, -, hplace⟩ := allocStartIn_spec layout hb
  have hasize : headerSize ≤ layout.allocSize :=
    le_trans (Nat.le_add_right _ _) (le_alignUp (by decide))
  have hfit' : layout.before b + layout.allocSize ≤ b.size := of_decide_eq_true hfit
  have hbefore : layout.before b = layout.place b - b.addr := rfl
  have hrem : layout.remainder b = b.size - (layout.before b + layout.allocSize) := rfl
  change layout.place b = b.addr ∨ b.addr + headerSize ≤ layout.place b at hplace
  intro r link
  have hr : r = h.carve prev b.addr (layout.place b) layout.allocSize := rfl
  have hlink : link = if headerSize ≤ layout.remainder b then (layout.used b).stop
    else h.nextOf b.addr := rfl
  clear_value r link
  rw [carve, hsize] at hr
  simp only [← hbefore, ← hrem] at hr
  simp only [used, Block.stop, Block.Has, headerSize] at *
  generalize layout.place b = a at *
  generalize layout.allocSize = n at *
  generalize layout.before b = before at *
  generalize layout.remainder b = rest at *
  -- Whether a free block is left behind, before, and which word the link is.
  by_cases hrest : 16 ≤ rest <;> by_cases hb16 : 16 ≤ before <;> by_cases hp : prev = 0
  all_goals
    simp only [hrest, hb16, setLink, hp, if_true, if_false] at hr hlink
    subst hr hlink
    simp only [hrest, hb16, hp, if_true, if_false, true_implies, false_implies, not_true_eq_false,
      not_false_eq_true, sizeOf, nextOf, mem_setSize, mem_setNext, head_setSize, head_setNext]
    and_intros
    all_goals
      intros
      first
      | trivial
      | split_ifs <;> first | rfl | omega

end

variable {h : Heap} {layout : Layout}

/-- The block behind the walk ends before the one it is at. -/
theorem lastAddr_apart (hroomy : Roomy (pre ++ b :: l)) (hp : lastAddr pre ≠ 0) :
    lastAddr pre + headerSize ≤ b.addr ∨ b.stop ≤ lastAddr pre := by
  rcases eq_nil_or_concat pre with rfl | ⟨init, c, rfl⟩
  · exact absurd rfl hp
  rw [concat_eq_append, lastAddr_concat]
  rw [concat_eq_append] at hroomy
  have happart := hroomy.apart (c := c) (.inl (by simp))
  have hroom := hroomy.room c (by simp)
  rw [Block.Apart, Block.stop] at happart
  omega

/-- Headers of the other blocks are outside the block and, but for the one behind the walk, do
not hold the link to it. -/
theorem header_outside (hroomy : Roomy (pre ++ b :: l)) (hc : c ∈ pre ∨ c ∈ l) : ¬ b.Has c.addr ∧
    ¬ b.Has (c.addr + 8) := by
  have happart := hroomy.apart hc
  have hroom := hroomy.room c (by rcases hc with hc | hc <;> simp [hc])
  simp only [Block.Has, Block.Apart, Block.stop, headerSize] at *
  omega

theorem header_ne_link (hroomy : Roomy (pre ++ b :: l)) (hc : c ∈ pre ∨ c ∈ l)
    (hp : lastAddr pre ≠ 0) : c.addr ≠ lastAddr pre + 8 ∧
    (c ∈ pre.dropLast ∨ c ∈ l → c.addr + 8 ≠ lastAddr pre + 8) := by
  rcases eq_nil_or_concat pre with rfl | ⟨init, q, rfl⟩
  · exact absurd rfl hp
  rw [concat_eq_append] at *
  rw [lastAddr_concat, dropLast_concat]
  rw [append_assoc, singleton_append] at hroomy
  -- The block behind the walk against the others.
  have hq : headerSize ≤ q.size := hroomy.room q (by simp)
  have hfar : ∀ d : Block, d ∈ init ∨ d ∈ l → d.addr ≠ q.addr + 8 ∧ d.addr + 8 ≠ q.addr + 8 := by
    intro d hd
    have hroom := hroomy.room d (by rcases hd with hd | hd <;> simp [hd])
    have happart := hroomy.apart (hd.imp_right (mem_cons_of_mem b))
    simp only [Block.Apart, Block.stop, headerSize] at *
    omega
  refine ⟨?_, fun hd => (hfar c hd).2⟩
  rcases hc with hc | hc
  · rcases mem_append.1 hc with hc | hc
    · exact (hfar c (.inl hc)).1
    · rw [mem_singleton.1 hc]
      omega
  · exact (hfar c (.inr hc)).1

/-- A new list after the blocks of `pre`, of which only the last link changed. -/
theorem Holds.splice {h' : Heap} (hh : h.Holds (pre ++ post))
    (hhead : pre ≠ [] → h'.head = h.head) (hpre : ∀ c ∈ pre, h'.mem c.addr = h.mem c.addr)
    (hnext : ∀ c ∈ pre.dropLast, h'.mem (c.addr + 8) = h.mem (c.addr + 8))
    (hpost : Linked h'.nextOf 0 (lastLink h'.nextOf h'.head (pre.map Block.addr))
      (post'.map Block.addr))
    (hsizes : ∀ c ∈ post', h'.sizeOf c.addr = c.size) : h'.Holds (pre ++ post') := by
  constructor
  · have hlinked := hh.linked
    rw [map_append] at hlinked ⊢
    refine hlinked.splice (fun hne => hhead fun h => hne (by simp [h])) ?_ hpost
    rw [← map_dropLast]
    exact forall_mem_map.2 hnext
  intro c hc
  rcases mem_append.1 hc with hc | hc
  · rw [sizeOf, hpre c hc]
    exact hh.sizes c (mem_append_left _ hc)
  · exact hsizes c hc

/-- The walk is at the block after `pre`. -/
theorem Holds.at (hh : h.Holds (pre ++ b :: l)) :
    lastLink h.nextOf h.head (pre.map Block.addr) = b.addr ∧ b.addr ≠ 0 ∧
      Linked h.nextOf 0 (h.nextOf b.addr) (l.map Block.addr) := by
  have hlinked := hh.linked
  rw [map_append] at hlinked
  exact hlinked.of_append

theorem lastLink_addr (h : Heap) (pre : List Block) (hne : ∀ c ∈ pre, 0 < c.addr) :
    lastLink h.nextOf h.head (pre.map Block.addr) =
      if lastAddr pre = 0 then h.head else h.nextOf (lastAddr pre) := by
  rcases eq_nil_or_concat pre with rfl | ⟨init, c, rfl⟩
  · rfl
  rw [concat_eq_append] at *
  have := hne c (by simp)
  rw [lastAddr_concat, if_neg (by omega), map_append]
  exact lastLink_concat _ _ _ _

theorem used_stop_pos (layout : Layout) (hb : 8 ∣ b.addr) (hpos : 0 < b.addr) :
    0 < (layout.used b).stop := by
  have hplace : (layout.used b).addr = b.addr ∨ b.addr + headerSize ≤ (layout.used b).addr :=
    (allocStartIn_spec layout hb).2.2
  rw [Block.stop]
  omega

/-- The link that leads to what comes after `pre` is in its last block. -/
theorem covers_link (hroom : ∀ c ∈ pre, headerSize ≤ c.size) (hp : lastAddr pre ≠ 0) :
    Covers pre (lastAddr pre + 8) := by
  rcases eq_nil_or_concat pre with rfl | ⟨init, c, rfl⟩
  · exact absurd rfl hp
  rw [concat_eq_append] at *
  have := hroom c (by simp)
  refine ⟨c, by simp, ?_⟩
  rw [lastAddr_concat, Block.Has, Block.stop]
  simp only [headerSize] at this
  omega

theorem holds_carve (hroomy : Roomy (pre ++ b :: l)) (hh : h.Holds (pre ++ b :: l))
    (hfit : layout.fits b) :
    let r := h.carve (lastAddr pre) b.addr (layout.place b) layout.allocSize
    r.1 = (layout.used b).addr + headerSize ∧ r.2.Holds (pre ++ (layout.spared b ++ l)) ∧
      r.2.sizeOf (layout.used b).addr = (layout.used b).size ∧
      ∀ x, ¬ Covers (pre ++ b :: l) x → r.2.mem x = h.mem x := by
  have hpos : ∀ c ∈ pre, 0 < c.addr := fun c hc => hroomy.nonnull c (by simp [hc])
  have hb8 := hroomy.aligned b (by simp)
  obtain ⟨hat, hb0, hl⟩ := hh.at
  obtain ⟨hptr, hused, hrem, hkeep, hdrop⟩ := carve_spec hb8
    (hroomy.room b (by simp)) hfit (hh.sizes b (by simp)) (lastAddr_apart hroomy)
  intro r
  generalize hlink : (if headerSize ≤ layout.remainder b then (layout.used b).stop
    else h.nextOf b.addr) = link at hkeep hdrop
  -- The words outside the block, other than the link to it.
  have hout : ∀ x, ¬ b.Has x → (lastAddr pre ≠ 0 → x ≠ lastAddr pre + 8) → r.2.mem x = h.mem x := by
    intro x hx hne
    by_cases hbefore : headerSize ≤ layout.before b
    · exact (hkeep hbefore).2.2.2 x hx
    · exact (hdrop hbefore).2.2 x hx hne
  have hheader : ∀ c, c ∈ pre ∨ c ∈ l → r.2.mem c.addr = h.mem c.addr := fun c hc =>
    hout _ (header_outside hroomy hc).1 fun hp => (header_ne_link hroomy hc hp).1
  have hlinks : ∀ c, c ∈ pre.dropLast ∨ c ∈ l → r.2.mem (c.addr + 8) = h.mem (c.addr + 8) := by
    intro c hc
    have hc' : c ∈ pre ∨ c ∈ l := hc.imp_left fun hc => dropLast_subset _ hc
    exact hout _ (header_outside hroomy hc').2 fun hp => (header_ne_link hroomy hc' hp).2 hc
  -- What follows the block: the remainder, if it is large enough, and the rest of the list.
  have hrest : Linked r.2.nextOf 0 link ((layout.rest b ++ l).map Block.addr) := by
    have hl' : Linked r.2.nextOf 0 (h.nextOf b.addr) (l.map Block.addr) :=
      hl.congr (forall_mem_map.2 fun c hc => hlinks c (.inr hc))
    rw [← hlink, rest]
    split_ifs with hbig
    · refine ⟨rfl, ?_, ?_⟩
      · exact (used_stop_pos layout hb8 (by omega)).ne'
      · rw [(hrem hbig).2]
        exact hl'
    · exact hl'
  have hsizes : ∀ c ∈ layout.spared b ++ l, r.2.sizeOf c.addr = c.size := by
    intro c hc
    rw [spared, rest, append_assoc, mem_append, mem_append] at hc
    rcases hc with hc | hc | hc
    · split_ifs at hc with hbefore
      · rw [mem_singleton.1 hc]
        exact (hkeep hbefore).1
      · cases hc
    · split_ifs at hc with hbig
      · rw [mem_singleton.1 hc]
        exact (hrem hbig).1
      · cases hc
    · rw [sizeOf, hheader c (.inr hc)]
      exact hh.sizes c (by simp [hc])
  refine ⟨hptr, hh.splice ?_ (fun c hc => hheader c (.inl hc))
    (fun c hc => hlinks c (.inl hc)) ?_ hsizes, hused, fun x hx => hout x ?_ ?_⟩
  · intro hne
    have hp : lastAddr pre ≠ 0 := fun hp => hne (eq_nil_of_lastAddr hpos hp)
    by_cases hbefore : headerSize ≤ layout.before b
    · exact (hkeep hbefore).2.2.1
    · rw [(hdrop hbefore).1, if_neg hp]
  · rw [lastLink_addr _ _ hpos, spared, append_assoc]
    rw [lastLink_addr _ _ hpos] at hat
    by_cases hbefore : headerSize ≤ layout.before b
    · obtain ⟨-, hnext, hhead, hsame⟩ := hkeep hbefore
      rw [if_pos hbefore]
      refine ⟨?_, hb0, ?_⟩
      · rw [hhead, ← hat]
        split_ifs with hp
        · rfl
        refine hsame _ ?_
        have := lastAddr_apart hroomy hp
        rw [Block.Has]
        simp only [headerSize] at this
        omega
      · rw [hnext]
        exact hrest
    obtain ⟨hhead, hprev, -⟩ := hdrop hbefore
    rw [if_neg hbefore]
    split_ifs with hp
    · rw [hhead, if_pos hp]
      exact hrest
    · rw [hprev hp]
      exact hrest
  · exact fun hhas => hx ⟨b, by simp, hhas⟩
  · rintro hp rfl
    have hroom : ∀ c ∈ pre, headerSize ≤ c.size := fun c hc => hroomy.room c (by simp [hc])
    exact hx (covers_append.2 (.inl (covers_link hroom hp)))

/-- The walk finds the first block that fits, or comes to the end. -/
theorem allocLoop_spec (layout : Layout) (pre : List Block)
    (hroomy : Roomy (pre ++ post)) (hh : h.Holds (pre ++ post)) :
    let loop := fun fuel => allocLoop layout fuel h (lastAddr pre)
      (lastLink h.nextOf h.head (pre.map Block.addr))
    (layout.allocFrom post = none → Returns loop (0, h)) ∧
      ∀ u post', layout.allocFrom post = some (u, post') →
        ∃ h', Returns loop (u.addr + headerSize, h') ∧ h'.Holds (pre ++ post') ∧
          h'.sizeOf u.addr = u.size ∧ ∀ x, ¬ Covers (pre ++ post) x → h'.mem x = h.mem x := by
  induction post generalizing pre with
  | nil =>
    have hlinked := hh.linked
    rw [map_append] at hlinked
    have hend : lastLink h.nextOf h.head (pre.map Block.addr) = 0 := hlinked.of_append
    refine ⟨fun _ => Returns.stop fun fuel => ?_, fun _ _ h => absurd h.symm (some_ne_none _)⟩
    rw [hend]
    rfl
  | cons b l ih =>
    obtain ⟨hat, hb0, -⟩ := hh.at
    intro loop
    have hloop : ∀ fuel, loop (fuel + 1) = if layout.fits b then
        some (h.carve (lastAddr pre) b.addr (layout.place b) layout.allocSize)
        else allocLoop layout fuel h b.addr (h.nextOf b.addr) := by
      intro fuel
      change allocLoop layout (fuel + 1) h (lastAddr pre) _ = _
      rw [hat, allocLoop, if_neg hb0, hh.sizes b (by simp)]
      exact if_congr (by rw [fits, decide_eq_true_iff]; rfl) rfl rfl
    rw [allocFrom]
    by_cases hfit : layout.fits b
    · simp only [if_pos hfit] at hloop ⊢
      refine ⟨fun h => absurd h (some_ne_none _), fun u post' hsome => ?_⟩
      obtain ⟨rfl, rfl⟩ := Prod.mk.inj (some.inj hsome)
      obtain ⟨hptr, hholds, hused, hframe⟩ := holds_carve hroomy hh hfit
      exact ⟨_, Returns.stop fun fuel => by rw [hloop, ← hptr], hholds, hused, hframe⟩
    simp only [if_neg hfit] at hloop ⊢
    rw [append_cons] at hroomy hh ⊢
    have hnext := ih (pre ++ [b]) hroomy hh
    rw [lastAddr_concat, map_append, map_singleton, lastLink_concat] at hnext
    refine ⟨fun hnone => (hnext.1 (map_eq_none_iff.1 hnone)).step hloop, fun u post' hsome => ?_⟩
    obtain ⟨⟨u', post''⟩, hfrom, heq⟩ := map_eq_some_iff.1 hsome
    obtain ⟨rfl, rfl⟩ := Prod.mk.inj heq
    obtain ⟨h', hr', hholds, hused, hframe⟩ := hnext.2 _ _ hfrom
    exact ⟨h', hr'.step hloop, by simpa using hholds, hused, hframe⟩

theorem Holds.frame {h' : Heap} (hh : h.Holds free) (hhead : h'.head = h.head)
    (heq : ∀ c ∈ free, h'.mem c.addr = h.mem c.addr ∧ h'.mem (c.addr + 8) = h.mem (c.addr + 8)) :
    h'.Holds free := by
  constructor
  · rw [hhead]
    exact hh.linked.congr (forall_mem_map.2 fun c hc => (heq c hc).2)
  · intro c hc
    rw [sizeOf, (heq c hc).1]
    exact hh.sizes c hc

/-- Two headers share no word. -/
theorem header_ne {c d : Block} (h : c.Apart d) (hc : headerSize ≤ c.size)
    (hd : headerSize ≤ d.size) : c.addr ≠ d.addr ∧ c.addr ≠ d.addr + 8 ∧ c.addr + 8 ≠ d.addr := by
  simp only [Block.Apart, Block.stop, headerSize] at *
  omega

/-- A word outside a block is not in its header. -/
theorem ne_header (hroom : headerSize ≤ c.size) (hc : c ∈ free) (hx : ¬ Covers free x) :
    x ≠ c.addr ∧ x ≠ c.addr + 8 := by
  have hhas : ¬ c.Has x := fun hhas => hx ⟨c, hc, hhas⟩
  simp only [Block.Has, Block.stop, headerSize] at *
  omega

/-- `u` linked in after `c`. -/
theorem holds_link (hroomy : Roomy (pre ++ c :: l)) (hh : h.Holds (pre ++ c :: l))
    (hu : ∀ d ∈ pre ++ c :: l, u.Apart d) (hroom : headerSize ≤ u.size) (hpos : 0 < u.addr)
    (hsize : h.sizeOf u.addr = u.size) :
    let h' := (h.setNext u.addr (h.nextOf c.addr)).setNext c.addr u.addr
    h'.Holds (pre ++ c :: u :: l) ∧
      ∀ x, ¬ Covers (u :: (pre ++ c :: l)) x → h'.mem x = h.mem x := by
  obtain ⟨-, -, hl⟩ := hh.at
  intro h'
  have hmem : ∀ x, h'.mem x = if x = c.addr + 8 then u.addr else
      if x = u.addr + 8 then h.nextOf c.addr else h.mem x := fun x => by
    rw [mem_setNext, mem_setNext]
  have hhead : h'.head = h.head := rfl
  clear_value h'
  have hne : ∀ d ∈ pre ++ c :: l, u.addr ≠ d.addr ∧ u.addr ≠ d.addr + 8 ∧ u.addr + 8 ≠ d.addr :=
    fun d hd => header_ne (hu d hd) hroom (hroomy.room d hd)
  have hc := hne c (by simp)
  -- The words of the other headers.
  have hframe : ∀ d, d ∈ pre ∨ d ∈ l →
      h'.mem d.addr = h.mem d.addr ∧ h'.mem (d.addr + 8) = h.mem (d.addr + 8) := by
    intro d hd
    have hd' : d ∈ pre ++ c :: l := by rcases hd with hd | hd <;> simp [hd]
    have h₁ := hne d hd'
    have h₂ := header_ne (hroomy.apart hd) (hroomy.room d hd') (hroomy.room c (by simp))
    simp only [hmem]
    constructor <;> (split_ifs <;> first | rfl | omega)
  have hcroom := hroomy.room c (by simp)
  refine ⟨?_, fun x hx => ?_⟩
  · rw [append_cons] at hh ⊢
    refine hh.splice (fun _ => hhead) (fun d hd => ?_) (fun d hd => ?_) ?_ (fun d hd => ?_)
    · rcases mem_append.1 hd with hd | hd
      · exact (hframe d (.inl hd)).1
      · rw [mem_singleton.1 hd, hmem, if_neg (by omega), if_neg (by omega)]
    · rw [dropLast_concat] at hd
      exact (hframe d (.inl hd)).2
    · have hu : h'.nextOf u.addr = h.nextOf c.addr := by
        rw [nextOf, hmem, if_neg (by omega), if_pos rfl]
      rw [map_append, map_singleton, lastLink_concat, nextOf, hmem, if_pos rfl]
      refine ⟨rfl, hpos.ne', ?_⟩
      rw [hu]
      exact hl.congr (forall_mem_map.2 fun d hd => (hframe d (.inr hd)).2)
    · rcases mem_cons.1 hd with rfl | hd
      · rw [sizeOf, hmem, if_neg (by omega), if_neg (by omega)]
        exact hsize
      · rw [sizeOf, (hframe d (.inr hd)).1]
        exact hh.sizes d (by simp [hd])
  · rw [hmem, if_neg (ne_header hcroom (by simp) hx).2, if_neg (ne_header hroom (by simp) hx).2]

theorem insertLoop_spec (pre : List Block) (hroomy : Roomy (pre ++ c :: post))
    (hh : h.Holds (pre ++ c :: post)) (hu : ∀ d ∈ pre ++ c :: post, u.Apart d)
    (hroom : headerSize ≤ u.size) (hpos : 0 < u.addr) (hsize : h.sizeOf u.addr = u.size) : ∃ h',
    Returns (fun fuel => insertLoop u.addr fuel h c.addr) h' ∧
    h'.Holds (pre ++ c :: insertBlock u post) ∧ ∀ x, ¬ Covers (u :: (pre ++ c :: post)) x →
    h'.mem x = h.mem x := by
  induction post generalizing pre c with
  | nil =>
    obtain ⟨-, -, hend⟩ := hh.at
    have hend : h.nextOf c.addr = 0 := hend
    refine ⟨_, Returns.stop fun fuel => ?_, holds_link hroomy hh hu hroom hpos hsize⟩
    rw [insertLoop, if_neg (fun hcond => hcond.1 hend)]
  | cons n l ih =>
    obtain ⟨-, -, hnext, hn0, -⟩ := hh.at
    have hne := header_ne (hu n (by simp)) hroom (hroomy.room n (by simp))
    rw [insertBlock]
    by_cases hlt : u.addr < n.addr
    · rw [if_pos hlt]
      refine ⟨_, Returns.stop fun fuel => ?_, holds_link hroomy hh hu hroom hpos hsize⟩
      rw [insertLoop, if_neg (by rw [hnext]; omega)]
    rw [if_neg hlt]
    rw [append_cons] at hroomy hh hu
    obtain ⟨h', hr, hholds, hframe⟩ := ih _ hroomy hh hu
    rw [← append_cons] at hframe
    refine ⟨h', hr.step fun fuel => ?_, by simpa using hholds, hframe⟩
    rw [insertLoop, if_pos (by rw [hnext]; omega), hnext]

/-- The block `n` after `c` joined to it. -/
theorem holds_join (hroomy : Roomy (pre ++ c :: n :: l))
    (hh : h.Holds (pre ++ c :: n :: l)) (htouch : c.stop = n.addr) :
    let h' := (h.setSize c.addr (c.size + n.size)).setNext c.addr
      ((h.setSize c.addr (c.size + n.size)).nextOf n.addr)
    h'.Holds (pre ++ ⟨c.addr, c.size + n.size⟩ :: l) ∧
      Roomy (pre ++ ⟨c.addr, c.size + n.size⟩ :: l) ∧
      ∀ x, ¬ Covers (pre ++ c :: n :: l) x → h'.mem x = h.mem x := by
  obtain ⟨hat, hc0, -, -, hl⟩ := hh.at
  have hcroom := hroomy.room c (by simp)
  have hcn := header_ne (hroomy.apart (.inr (by simp))) (hroomy.room n (by simp)) hcroom
  intro h'
  have hmem : ∀ x, h'.mem x = if x = c.addr + 8 then h.nextOf n.addr else
      if x = c.addr then c.size + n.size else h.mem x := fun x => by
    have hn : (h.setSize c.addr (c.size + n.size)).nextOf n.addr = h.nextOf n.addr := by
      rw [nextOf, mem_setSize, if_neg (by omega), nextOf]
    rw [mem_setNext, mem_setSize, hn]
  have hhead : h'.head = h.head := rfl
  clear_value h'
  have hframe : ∀ d, d ∈ pre ∨ d ∈ l →
      h'.mem d.addr = h.mem d.addr ∧ h'.mem (d.addr + 8) = h.mem (d.addr + 8) := by
    intro d hd
    have hd' : d ∈ pre ++ c :: n :: l := by rcases hd with hd | hd <;> simp [hd]
    have h₂ := header_ne (hroomy.apart (hd.imp_right (mem_cons_of_mem _)))
      (hroomy.room d hd') hcroom
    simp only [hmem]
    constructor <;> (split_ifs <;> first | rfl | omega)
  refine ⟨?_, ?_, fun x hx => ?_⟩
  · refine hh.splice (fun _ => hhead) (fun d hd => (hframe d (.inl hd)).1)
      (fun d hd => (hframe d (.inl (dropLast_subset _ hd))).2) ?_ (fun d hd => ?_)
    · have hsame : ∀ a ∈ pre.map Block.addr, h'.nextOf a = h.nextOf a :=
        forall_mem_map.2 fun d hd => (hframe d (.inl hd)).2
      rw [hhead, lastLink_congr h.head hsame, hat]
      refine ⟨rfl, hc0, ?_⟩
      change Linked h'.nextOf 0 (h'.nextOf c.addr) _
      rw [nextOf, hmem, if_pos rfl]
      exact hl.congr (forall_mem_map.2 fun d hd => (hframe d (.inr hd)).2)
    · rcases mem_cons.1 hd with rfl | hd
      · rw [sizeOf, hmem, if_neg (by simp), if_pos rfl]
      · rw [sizeOf, (hframe d (.inr hd)).1]
        exact hh.sizes d (by simp [hd])
  · exact hroomy.join htouch
  · have hne := ne_header hcroom (by simp) hx
    rw [hmem, if_neg hne.2, if_neg hne.1]

theorem coalesceLoop_spec (pre : List Block) (hroomy : Roomy (pre ++ c :: post))
    (hh : h.Holds (pre ++ c :: post)) : ∃ h', Returns (fun fuel => coalesceLoop fuel h c.addr) h' ∧
    h'.Holds (pre ++ mergeFrom c post) ∧ ∀ x, ¬ Covers (pre ++ c :: post) x →
    h'.mem x = h.mem x := by
  induction post generalizing pre c h with
  | nil =>
    obtain ⟨-, -, hend⟩ := hh.at
    have hend : h.nextOf c.addr = 0 := hend
    refine ⟨h, Returns.stop fun fuel => ?_, hh, fun _ _ => rfl⟩
    rw [coalesceLoop, if_pos hend]
  | cons n l ih =>
    obtain ⟨-, -, hnext, hn0, -⟩ := hh.at
    have hc := hh.sizes c (by simp)
    have hn := hh.sizes n (by simp)
    rw [mergeFrom]
    by_cases htouch : c.stop = n.addr
    · rw [if_pos htouch]
      obtain ⟨hholds, hroomy', hframe⟩ := holds_join hroomy hh htouch
      obtain ⟨h', hr, hholds', hframe'⟩ := ih _ hroomy' hholds
      refine ⟨h', hr.step fun fuel => ?_, hholds', fun x hx => ?_⟩
      · rw [coalesceLoop, if_neg (by rw [hnext]; exact hn0)]
        simp only [hnext, hc, hn]
        exact if_pos htouch
      rw [hframe' x, hframe x hx]
      rw [covers_append, covers_cons, has_join htouch]
      rwa [covers_append, covers_cons, covers_cons, ← or_assoc (a := c.Has x)] at hx
    rw [if_neg htouch]
    have hstep : ∀ fuel, coalesceLoop (fuel + 1) h c.addr = coalesceLoop fuel h n.addr := by
      intro fuel
      rw [coalesceLoop, if_neg (by rw [hnext]; exact hn0)]
      simp only [hnext, hc]
      exact if_neg htouch
    rw [append_cons] at hroomy hh
    obtain ⟨h', hr, hholds, hframe⟩ := ih _ hroomy hh
    rw [← append_cons] at hframe
    exact ⟨h', hr.step hstep, by simpa using hholds, hframe⟩

variable {u : Block}

variable (hroomy : Roomy free)
include hroomy

variable (hh : h.Holds free)
include hh

section
variable (hu : ∀ d ∈ free, u.Apart d)
include hu

/-- `u` linked in at the head. -/
theorem holds_push (hroom : headerSize ≤ u.size) (hpos : 0 < u.addr)
    (hsize : h.sizeOf u.addr = u.size) :
    let h' := { h.setNext u.addr h.head with head := u.addr }
    h'.Holds (u :: free) ∧ ∀ x, ¬ Covers (u :: free) x → h'.mem x = h.mem x := by
  intro h'
  have hmem : ∀ x, h'.mem x = if x = u.addr + 8 then h.head else h.mem x := fun x => mem_setNext
  have hhead : h'.head = u.addr := rfl
  clear_value h'
  have hne : ∀ d ∈ free, u.addr ≠ d.addr ∧ u.addr ≠ d.addr + 8 ∧ u.addr + 8 ≠ d.addr :=
    fun d hd => header_ne (hu d hd) hroom (hroomy.room d hd)
  refine ⟨⟨⟨hhead, hpos.ne', ?_⟩, fun d hd => ?_⟩, fun x hx => ?_⟩
  · rw [nextOf, hmem, if_pos rfl]
    refine hh.linked.congr (forall_mem_map.2 fun d hd => ?_)
    have := hne d hd
    rw [nextOf, hmem, if_neg (by omega), nextOf]
  · rcases mem_cons.1 hd with rfl | hd
    · rw [sizeOf, hmem, if_neg (by omega)]
      exact hsize
    have := hne d hd
    rw [sizeOf, hmem, if_neg (by omega)]
    exact hh.sizes d hd
  · rw [hmem, if_neg (ne_header hroom (by simp) hx).2]

/-- The block in its place in the list, before blocks that touch are joined. -/
theorem insert_spec (hroom : headerSize ≤ u.size)
    (hpos : 0 < u.addr) (hsize : h.sizeOf u.addr = u.size) :
    ∃ h', Returns (fun fuel => if h.head = 0 ∨ u.addr < h.head then
        some { h.setNext u.addr h.head with head := u.addr }
        else insertLoop u.addr fuel h h.head) h' ∧ h'.Holds (insertBlock u free) ∧
      ∀ x, ¬ Covers (u :: free) x → h'.mem x = h.mem x := by
  cases free with
  | nil =>
    have hhead : h.head = 0 := hh.linked
    simp only [if_pos (show h.head = 0 ∨ u.addr < h.head from .inl hhead)]
    exact ⟨_, Returns.const _, holds_push hroomy hh hu hroom hpos hsize⟩
  | cons c l =>
    obtain ⟨hhead, hc0, -⟩ := hh.linked
    change h.head = c.addr at hhead
    rw [insertBlock]
    by_cases hlt : u.addr < c.addr
    · simp only [if_pos (show h.head = 0 ∨ u.addr < h.head from .inr (hhead ▸ hlt)), if_pos hlt]
      exact ⟨_, Returns.const _, holds_push hroomy hh hu hroom hpos hsize⟩
    have hcond : ¬ (c.addr = 0 ∨ u.addr < c.addr) := not_or.2 ⟨hc0, hlt⟩
    simp only [hhead, if_neg hcond, if_neg hlt]
    exact insertLoop_spec [] hroomy hh hu hroom hpos hsize

omit hu in
theorem coalesceHead_spec : ∃ h',
    Returns (fun fuel => coalesceHead fuel h) h' ∧ h'.Holds (merge free) ∧ ∀ x, ¬ Covers free x →
    h'.mem x = h.mem x := by
  cases free with
  | nil =>
    have hhead : h.head = 0 := hh.linked
    simp only [coalesceHead, if_pos hhead]
    exact ⟨h, Returns.const h, hh, fun _ _ => rfl⟩
  | cons c l =>
    obtain ⟨hhead, hc0, -⟩ := hh.linked
    change h.head = c.addr at hhead
    simp only [coalesceHead, hhead, if_neg hc0]
    exact coalesceLoop_spec [] hroomy hh

theorem deallocToFreeList_spec (hroom : headerSize ≤ u.size) (hpos : 0 < u.addr) (h8 : 8 ∣ u.addr)
    (hsize : h.sizeOf u.addr = u.size) : ∃ h',
    Returns (fun fuel => deallocToFreeList fuel h (u.addr + headerSize)) h' ∧
    h'.Holds (merge (insertBlock u free)) ∧ ∀ x, ¬ Covers (u :: free) x → h'.mem x = h.mem x := by
  -- Writing the header of the block that is given back.
  let h₀ := (h.setSize u.addr (h.sizeOf u.addr)).setNext u.addr 0
  have hmem : ∀ x, h₀.mem x = if x = u.addr + 8 then 0 else h.mem x := fun x => by
    rw [mem_setNext, mem_setSize]
    refine if_congr Iff.rfl rfl ?_
    split_ifs with hx
    · rw [hx, sizeOf]
    · rfl
  have hholds₀ : h₀.Holds free := hh.frame rfl fun c hc => by
    have := header_ne (hu c hc) hroom (hroomy.room c hc)
    rw [hmem, hmem, if_neg (by omega), if_neg (by omega)]
    exact ⟨rfl, rfl⟩
  have hsize₀ : h₀.sizeOf u.addr = u.size := by
    rw [sizeOf, hmem, if_neg (by omega)]
    exact hsize
  obtain ⟨h₁, hr₁, hholds₁, hframe₁⟩ := insert_spec hroomy hholds₀ hu hroom hpos hsize₀
  obtain ⟨h₂, hr₂, hholds₂, hframe₂⟩ :=
    coalesceHead_spec (hroomy.insertBlock hu hroom hpos h8) hholds₁
  refine ⟨h₂, ?_, hholds₂, fun x hx => ?_⟩
  · exact hr₁.bind hr₂
  rw [hframe₂ x (by rw [covers_insertBlock, ← covers_cons]; exact hx), hframe₁ x hx, hmem,
    if_neg (ne_header hroom (by simp) hx).2]

end

end Heap

end Ristux.Memory
