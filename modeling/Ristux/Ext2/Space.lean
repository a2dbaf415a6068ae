import Mathlib.Algebra.BigOperators.Group.List.Basic
import Mathlib.Data.Finset.Card
import Ristux.Ext2.Prims
import Ristux.Ext2.FreeData
import Ristux.Ext2.WriteData

-- The writer succeeds exactly when enough blocks are free; when it runs out of space it has taken
-- every block there is.

namespace Ristux.Ext2
open Lib Proc List Res Nat Forest Store
variable {fs : Ext2Fs} {s : Store} {α : Type} {blocks : List ℕ} {data : List UInt8}

def MetaUsed (fs : Ext2Fs) (s : Store) : Prop := ∀ b ∈ metaBlocks fs, s.blockUsed b = true

def freeSet (fs : Ext2Fs) (s : Store) : Finset ℕ :=
  (Finset.range fs.blocksCount).filter fun b => s.blockUsed b = false

def Store.markAll (s : Store) (N : List ℕ) (used : Bool) : Store :=
  { s with blockUsed := fun b => if b ∈ N then used else s.blockUsed b }

theorem mem_freeSet : b ∈ freeSet fs s ↔ b < fs.blocksCount ∧ s.blockUsed b = false := by
  simp [freeSet]

theorem MetaUsed.dataBlock (h : MetaUsed fs s) (hb : b < fs.blocksCount)
    (hfree : s.blockUsed b = false) : DataBlock fs b := by
  refine ⟨hb, fun hm => ?_⟩
  rw [h b hm] at hfree
  cases hfree

section Free
variable (h : Layout fs)

theorem Store.markAll_append (s : Store) (N N' : List ℕ) (used : Bool) :
    (s.markAll N used).markAll N' used = s.markAll (N ++ N') used := by
  simp only [markAll, mem_append, mk.injEq, and_self, and_true]
  funext b
  by_cases hN : b ∈ N <;> by_cases hN' : b ∈ N' <;> simp [hN, hN']

@[simp] theorem Store.markAll_nil (s : Store) (used : Bool) : s.markAll [] used = s := by
  simp only [markAll, not_mem_nil, if_false]

theorem Store.markAll_congr (s : Store) (hN : ∀ b, b ∈ N ↔ b ∈ N') (used : Bool) :
    s.markAll N used = s.markAll N' used := by
  simp only [markAll, hN]

theorem Store.foldl_markAll (ks : List ℕ) (s : Store) (used : Bool) :
    ks.foldl (fun t k => t.markAll (own k) used) s = s.markAll (ks.flatMap own) used := by
  induction ks generalizing s with
  | nil => simp [markAll]
  | cons k ks ih => rw [foldl_cons, ih, markAll_append, flatMap_cons]

include h

theorem freeBlock_markAll (hb : b < fs.blocksCount) : Does (At fs)
    (freeBlock fs b) s (Ends () (s.markAll [b] false)) := by
  have heq : s.markAll [b] false = s.setBlockUsed b false := by
    simp only [markAll, setBlockUsed, mem_singleton, mk.injEq, and_self, and_true]
    funext c
    rw [Function.update_apply]
  rw [heq]
  exact freeBlock_does h hb

theorem readIndirectBlocks_at (hw : At fs s w) (hb : DataBlock fs b) :
    readIndirectBlocks fs b w.dev = .ok (kids s.block b) := by
  rw [readIndirectBlocks_of_onDevice h.blockSize (hw.1 b hb.1), kids, kids, hw.block_eq hb]

theorem freeTree_does (hdata : ∀ n ∈ nodes (kids d) level b, DataBlock fs n)
    (hs : s.block = d) : Does (At fs) (freeTree fs level b) s
      (Ends () (s.markAll (nodes (kids d) level b) false)) := by
  induction level generalizing b s with
  | zero => exact freeBlock_markAll h (hdata b (by simp [nodes])).1
  | succ level ih =>
    have hb := hdata b (root_mem_nodes _ _)
    have hkids : ∀ w, At fs s w → readIndirectBlocks fs b w.dev = .ok (kids d b) :=
      fun w hw => hs ▸ readIndirectBlocks_at h hw hb
    refine Does.query_bind hkids ?_
    have hloop : Does (At fs) (forEach (freeTree fs level) (kids d b)) s _ :=
      Does.forEach (fun k t => t.markAll (nodes (kids d) level k) false)
        (fun t => t.block = d) (fun k hk t ht =>
          ⟨ih (fun n hn => hdata n (mem_cons_of_mem _ (mem_flatMap.2 ⟨k, hk, hn⟩))) ht, ht⟩) hs
    refine hloop.step ((freeBlock_markAll h hb.1).mono ?_)
    rintro r t' ⟨rfl, rfl⟩
    refine ⟨rfl, ?_⟩
    rw [foldl_markAll, markAll_append, nodes]
    exact markAll_congr _ (fun c => by simp [or_comm]) _

theorem freeTreeIf_does
    (hdata : ∀ n ∈ treeOr (nodes (kids d)) level b, DataBlock fs n) (hs : s.block = d) :
    Does (At fs) (freeTreeIf fs level b) s
      (Ends () (s.markAll (treeOr (nodes (kids d)) level b) false)) := by
  unfold freeTreeIf
  unfold treeOr at hdata ⊢
  by_cases hb : b = 0
  · rw [if_neg (not_not.2 hb), if_pos hb]
    exact Does.pure ⟨rfl, by simp [markAll]⟩
  rw [if_neg hb] at hdata ⊢
  rw [if_pos hb]
  exact freeTree_does h hdata hs

theorem freeInodeBlocks_does {inode : Inode} (hdata : ∀ n ∈ refs s.block inode, DataBlock fs n) :
    Does (At fs) (freeInodeBlocks fs inode) s (Ends () (s.markAll (refs s.block inode) false)) := by
  obtain ⟨d, hd⟩ : ∃ d, s.block = d := ⟨_, rfl⟩
  rw [hd, refs_eq] at hdata ⊢
  simp only [mem_append, or_imp, forall_and] at hdata
  obtain ⟨⟨⟨h₁, h₂⟩, h₃⟩, h₄⟩ := hdata
  have hloop : Does (At fs) (forEach (freeBlock fs) (inode.direct.filter (· ≠ 0))) s _ :=
    Does.forEach (fun k t => t.markAll [k] false) (fun t => t.block = d)
      (fun k hk t ht => ⟨freeBlock_markAll h (h₁ k hk).1, ht⟩) hd
  refine hloop.step ?_
  rw [foldl_markAll, flatMap_singleton']
  refine (freeTreeIf_does h h₂ (by exact hd)).step ?_
  refine (freeTreeIf_does h h₃ (by exact hd)).step ?_
  refine (freeTreeIf_does h h₄ (by exact hd)).mono ?_
  rintro r t' ⟨rfl, rfl⟩
  exact ⟨rfl, by simp only [markAll_append]⟩

end Free

/-- `x` takes `T` free blocks; with fewer than that it takes all of them and reports that
there is no space. -/
def Uses {α : Type} (fs : Ext2Fs) (T : ℕ) (x : M α) (P : α → Prop) : Prop :=
  ∀ s, MetaUsed fs s → Does (At fs) x s fun r s' => MetaUsed fs s' ∧
    ((∃ a, r = .ok a ∧ P a ∧ (freeSet fs s').card + T = (freeSet fs s).card) ∨
      (r = Res.err .noSpace ∧ (freeSet fs s).card < T ∧ freeSet fs s' = ∅))

namespace Uses
theorem pure (h : P a) : Uses fs 0 (pure a) P :=
  fun _ hm => Does.pure ⟨hm, .inl ⟨a, rfl, h, rfl⟩⟩

theorem lift (hr : r = .ok a) (h : P a) : Uses fs 0 (lift r) P :=
  fun _ hm => Does.lift ⟨hm, .inl ⟨a, hr, h, rfl⟩⟩

theorem mono (hx : Uses fs T x P) (h : ∀ a, P a → P' a) : Uses fs T x P' := by
  intro s hm
  refine (hx s hm).mono ?_
  rintro r s' ⟨hm', ⟨a, hr, hP, hc⟩ | hno⟩
  · exact ⟨hm', .inl ⟨a, hr, h a hP, hc⟩⟩
  · exact ⟨hm', .inr hno⟩

theorem bind (hx : Uses fs T x P) (hf : ∀ a, P a → Uses fs T' (f a) Q) :
    Uses fs (T + T') (x >>= f) Q := by
  intro s hm
  refine (hx s hm).bind ?_ ?_
  · rintro a s₁ ⟨hm₁, ⟨_, ⟨⟩, hP, hc⟩ | ⟨⟨⟩, -⟩⟩
    refine (hf a hP s₁ hm₁).mono ?_
    rintro r s₂ ⟨hm₂, ⟨b, hr, hQ, hc'⟩ | ⟨hr, hlt, hempty⟩⟩
    · exact ⟨hm₂, .inl ⟨b, hr, hQ, by omega⟩⟩
    · exact ⟨hm₂, .inr ⟨hr, by omega, hempty⟩⟩
  · rintro e s₁ ⟨hm₁, ⟨_, ⟨⟩, -⟩ | ⟨hr, hlt, hempty⟩⟩
    cases hr
    exact ⟨hm₁, .inr ⟨rfl, by omega, hempty⟩⟩

theorem bind_zero (hx : Uses fs T x P) (hf : ∀ a, P a → Uses fs 0 (f a) Q) :
    Uses fs T (x >>= f) Q := hx.bind hf

theorem zero_bind (hx : Uses fs 0 x P) (hf : ∀ a, P a → Uses fs T (f a) Q) :
    Uses fs T (x >>= f) Q := by
  have := hx.bind hf
  rwa [zero_add] at this

theorem mapEach (cost : α → ℕ) (hg : ∀ a ∈ as, Uses fs (cost a) (g a) Q) :
    Uses fs (as.map cost).sum (mapEach g as)
      fun bs => bs.length = as.length ∧ ∀ b ∈ bs, Q b := by
  induction as with
  | nil => exact Uses.pure ⟨rfl, by simp⟩
  | cons a as ih =>
    refine (hg a mem_cons_self).bind fun b hb => ?_
    refine (ih (forall_mem_cons.1 hg).2).bind_zero fun bs hbs => ?_
    refine Uses.pure ⟨by simp [hbs.1], fun c hc => ?_⟩
    rcases mem_cons.1 hc with rfl | hc
    · exact hb
    · exact hbs.2 c hc

theorem currentExt2Time : Uses fs 0 currentExt2Time fun _ => True := by
  intro s hm
  refine currentExt2Time_does.mono ?_
  rintro r s' ⟨rfl, now, -, rfl⟩
  exact ⟨hm, .inl ⟨now, rfl, trivial, rfl⟩⟩

section Layout
variable (h : Layout fs)
include h

theorem allocateBlock : Uses fs 1 (allocateBlock fs) (DataBlock fs) := by
  intro s hm
  refine (allocateBlock_does h).mono ?_
  rintro r s' (⟨b, hb, hfree, rfl, rfl⟩ | ⟨rfl, rfl, hall⟩)
  · have hmem : b ∈ freeSet fs s := mem_freeSet.2 ⟨hb, hfree⟩
    have hset : freeSet fs (s.setBlockUsed b true) = (freeSet fs s).erase b := by
      ext c
      by_cases hc : c = b <;> simp [mem_freeSet, setBlockUsed, hc]
    refine ⟨fun c hc => ?_, .inl ⟨b, rfl, hm.dataBlock hb hfree, ?_⟩⟩
    · by_cases hcb : c = b <;> simp [setBlockUsed, hcb, hm c hc]
    · rw [hset, Finset.card_erase_add_one hmem]
  have hempty : freeSet fs s' = ∅ := by
    refine Finset.eq_empty_of_forall_notMem fun c hc => ?_
    obtain ⟨hlt, hfree⟩ := mem_freeSet.1 hc
    rw [hall c hlt] at hfree
    cases hfree
  exact ⟨hm, .inr ⟨rfl, by simp [hempty], hempty⟩⟩

theorem write (hb : DataBlock fs b) (hlen : 1024 ≤ len) (data : Buf) :
    Uses fs 0 (writeBlockSized fs b len data) fun _ => True := by
  intro s hm
  refine (writeBlock_does h hb hlen data).mono ?_
  rintro r s' ⟨rfl, rfl⟩
  exact ⟨hm, .inl ⟨(), rfl, trivial, rfl⟩⟩

end Layout

end Uses

/-- The pointer blocks of a tree over `n` data blocks, of which the lowest level holds 256
each. -/
def pointerCost : ℕ → ℕ → ℕ
  | 0, _ => 1
  | height + 1, n => pointerCost height n + divCeil n (256 ^ (height + 1))

def pointerCostIf (height n : ℕ) : ℕ := if n = 0 then 0 else pointerCost height n

/-- The blocks a file of `n` data blocks takes. -/
def blockCost (n : ℕ) : ℕ :=
  n + pointerCostIf 0 (min (n - 12) 256) + pointerCostIf 1 (min (n - 268) 65536) +
    pointerCostIf 2 (n - 65804)

def maxBlocks : ℕ := 12 + 256 + 256 * 256 + 256 * 256 * 256

theorem divCeil_add_mul (a k : ℕ) (hb : 0 < b) : divCeil (k * b + a) b = k + divCeil a b := by
  rw [divCeil, divCeil, show k * b + a + b - 1 = a + b - 1 + b * k by rw [mul_comm]; omega,
    add_mul_div_left _ _ hb, add_comm]

/-- Chunks of a multiple of `d` blocks do not waste pointer blocks. -/
theorem sum_divCeil_chunks (hc : 0 < c) (hd : 0 < d) (hdvd : d ∣ c) (xs : List α) :
    ((chunks c xs).map fun chunk => divCeil chunk.length d).sum = divCeil xs.length d := by
  obtain ⟨k, rfl⟩ := hdvd
  induction xs using chunks_induction hc with
  | nil => simp [divCeil, div_eq_of_lt (sub_lt hd one_pos)]
  | step xs hxs ih =>
    rw [chunks_of_ne_nil hc hxs, map_cons, sum_cons, ih, length_take, length_drop]
    rcases le_total (d * k) xs.length with hle | hle
    · obtain ⟨r, hr⟩ := Nat.exists_eq_add_of_le hle
      rw [min_eq_left hle, hr, Nat.add_sub_cancel_left]
      have h0 := divCeil_add_mul 0 k hd
      rw [mul_comm d k, divCeil_add_mul r k hd]
      simp [divCeil, div_eq_of_lt (sub_lt hd one_pos)] at h0 ⊢
      omega
    · rw [min_eq_right hle, Nat.sub_eq_zero_of_le hle]
      simp [divCeil, div_eq_of_lt (sub_lt hd one_pos)]

theorem sum_pointerCost_chunks (hc : 0 < c) (hdvd : 256 ^ height ∣ c) (xs : List α) :
    ((chunks c xs).map fun chunk => pointerCost height chunk.length).sum + 1 =
      divCeil xs.length c + pointerCost height xs.length := by
  induction height with
  | zero =>
    simp [pointerCost, chunks_length, divCeil]
  | succ height ih =>
    have hsum := sum_divCeil_chunks hc (Nat.pow_pos (by omega)) hdvd xs
    have hrest := ih (dvd_trans (pow_dvd_pow 256 (le_succ height)) hdvd)
    simp only [pointerCost, sum_map_add]
    omega

section Writer
variable (h : Layout fs)
include h

theorem writeIndirect_uses (height : ℕ) (hlen : blocks.length ≤ 256 ^ (height + 1)) :
    Uses fs (pointerCost height blocks.length) (writeIndirect fs height blocks)
      fun _ => True := by
  induction height generalizing blocks with
  | zero =>
    rw [writeIndirect, h.blockSize]
    refine (Uses.allocateBlock h).bind_zero fun b hb => ?_
    refine (Uses.lift (P := fun _ => True) (check_of (by omega)) trivial).zero_bind fun _ _ => ?_
    exact (Uses.write h hb le_rfl _).bind_zero fun _ _ => Uses.pure trivial
  | succ height ih =>
    have hpos : 0 < 256 ^ (height + 1) := Nat.pow_pos (by omega)
    have hcount : (chunks (256 ^ (height + 1)) blocks).length ≤ 256 := by
      rw [chunks_length, div_le_iff_le_mul hpos]
      omega
    have hcost : pointerCost (height + 1) blocks.length =
        1 + ((chunks (256 ^ (height + 1)) blocks).map fun c => pointerCost height c.length).sum := by
      have := sum_pointerCost_chunks hpos (pow_dvd_pow 256 (le_succ height)) blocks
      rw [pointerCost]
      omega
    rw [writeIndirect, hcost, h.blockSize]
    refine (Uses.allocateBlock h).bind fun b hb => ?_
    refine (Uses.mapEach (fun c : List ℕ => pointerCost height c.length) fun c hc =>
      ih (length_le_of_mem_chunks hc)).bind_zero fun entries hentries => ?_
    refine (Uses.lift (P := fun _ => True) (check_of ?_) trivial).zero_bind fun _ _ => ?_
    · rw [hentries.1]
      omega
    · exact (Uses.write h hb le_rfl _).bind_zero fun _ _ => Uses.pure trivial

theorem writeIndirectIf_uses (height : ℕ) (hlen : blocks.length = n)
    (hneeded : needed = true ↔ n ≠ 0) (hn : n ≤ 256 ^ (height + 1)) :
    Uses fs (pointerCostIf height n) (writeIndirectIf fs needed height blocks) fun _ => True := by
  unfold writeIndirectIf pointerCostIf
  by_cases hz : n = 0
  · rw [if_pos hz, if_neg fun hc => hneeded.1 hc hz]
    exact Uses.pure trivial
  · rw [if_neg hz, if_pos (hneeded.2 hz), ← hlen]
    exact writeIndirect_uses h height (hlen ▸ hn)

theorem dataBlocks_uses (data : List UInt8) (n : ℕ) : Uses fs n (mapEach (fun index => do
        let block ← allocateBlock fs
        writeDataBlock fs block
          ((data.take (min (index * 1024 + 1024) data.length)).drop (index * 1024))
        pure block) (range n)) fun bs => bs.length = n := by
  have hstep : ∀ index ∈ range n, Uses fs 1 (allocateBlock fs >>= fun block =>
      writeDataBlock fs block ((data.take (min (index * 1024 + 1024) data.length)).drop
        (index * 1024)) >>= fun _ => pure block) fun _ => True := by
    intro index _
    refine (Uses.allocateBlock h).bind_zero fun b hb => ?_
    rw [writeDataBlock, h.blockSize, bind_assoc]
    refine (Uses.lift (P := fun _ => True) (check_of (min_le_right _ _))
      trivial).zero_bind fun _ _ => ?_
    exact (Uses.write h hb le_rfl _).bind_zero fun _ _ => Uses.pure trivial
  have hmap := Uses.mapEach (fun _ : ℕ => 1) hstep
  rw [show ((range n).map fun _ => 1).sum = n by simp] at hmap
  exact hmap.mono fun bs hbs => by simpa using hbs.1

/-- The writer needs the blocks of the data and of the pointers to it. -/
theorem fillInode_uses (inode : Inode) (hmax : divCeil data.length 1024 ≤ maxBlocks) :
    Uses fs (blockCost (divCeil data.length 1024)) (fillInode fs inode data) fun _ => True := by
  unfold fillInode
  unfold maxBlocks at hmax
  rw [h.blockSize, ext2DirectBlocks, if_neg (by omega), blockCost, add_assoc, add_assoc]
  refine (dataBlocks_uses h data _).bind fun bs hbs => ?_
  refine (writeIndirectIf_uses h 0 (by simp [hbs]) ?_ (by omega)).bind fun _ _ => ?_
  · rw [decide_eq_true_iff]
    omega
  refine (writeIndirectIf_uses h 1 (by simp [hbs]; omega) ?_ (by omega)).bind fun _ _ => ?_
  · rw [decide_eq_true_iff]
    omega
  refine (writeIndirectIf_uses h 2 (by simp [hbs]; omega) ?_ (by omega)).bind_zero fun _ _ => ?_
  · rw [decide_eq_true_iff]
    omega
  exact Uses.currentExt2Time.bind_zero fun _ _ => Uses.pure trivial

omit h in
theorem fillInode_tooLarge (hbs : fs.blockSize = 1024) (inode : Inode)
    (hmax : maxBlocks < divCeil data.length 1024) :
    fillInode fs inode data = fail .unsupported := by
  unfold fillInode
  rw [hbs, if_pos]
  unfold maxBlocks at hmax
  simp [ext2DirectBlocks]
  omega

end Writer

end Ristux.Ext2
