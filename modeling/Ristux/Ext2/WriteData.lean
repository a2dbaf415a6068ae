import Ristux.Ext2.Fresh
import Ristux.Ext2.ReadRange

namespace Ristux.Ext2
open Lib List Proc Res Nat Ext2 Forest Allocs Buf
variable {bs : List ℕ} {a o : ℕ}

/-- A block number that can stand in a pointer block. -/
def Pointer (b : ℕ) : Prop := b ≠ 0 ∧ b ≤ u32Max

/-- Pointer block `p` holds `entries` and null pointers after them. -/
structure Points (fs : Ext2Fs) (w : World) (p : ℕ) (entries : List ℕ) : Prop where
  pointer : Pointer p
  onDevice : OnDevice fs w.dev p
  content : diskOf fs w.dev p = storeU32s zero 0 entries
  length : entries.length ≤ 256
  pointers : ∀ e ∈ entries, Pointer e

/-- The tree of height `height + 1` below `p` has `blocks` as its leaves, packed from the
left. -/
def Builds (fs : Ext2Fs) (w : World) : ℕ → ℕ → List ℕ → Prop
  | 0, p, blocks => Points fs w p blocks
  | height + 1, p, blocks => ∃ entries, Points fs w p entries ∧
      Forall₂ (fun chunk e => Builds fs w height e chunk)
        (chunks (256 ^ (height + 1)) blocks) entries

variable {blocks : List ℕ} {height p : ℕ} {b : ℕ}

section Builds
theorem Points.u32At (h : Points fs w p entries) (k : ℕ) :
    (diskOf fs w.dev p).u32At (4 * k) = entries.getD k 0 := by
  rw [h.content, u32At_storeU32s_zero fun e hm => ?_]
  have := (h.pointers e hm).2
  unfold u32Max at this
  omega

theorem Points.kids (h : Points fs w p entries) : kids (diskOf fs w.dev) p = entries := by
  have hall : entriesIn (diskOf fs w.dev p) =
      entries ++ replicate (256 - entries.length) 0 := by
    have := h.length
    apply ext_getElem
    · simp [entriesIn]
      omega
    intro k h₁ h₂
    simp only [entriesIn, getElem_map, getElem_range]
    rw [h.u32At]
    by_cases hk : k < entries.length
    · rw [getD_eq_getElem _ _ hk, getElem_append_left hk]
    · rw [getD_eq_default _ _ (by omega), getElem_append_right (by omega), getElem_replicate]
  rw [Ext2.kids, hall, filter_append, filter_eq_self.2]
  · simp
  · intro e hm
    simpa using (h.pointers e hm).1

section
variable (h : Builds fs w height p blocks)
include h

theorem Builds.pointer : Pointer p := by
  cases height with
  | zero => exact Points.pointer h
  | succ height =>
    obtain ⟨entries, hp, -⟩ := h
    exact hp.pointer

omit h in
theorem pow256_pos (n : ℕ) : 0 < 256 ^ n := Nat.pow_pos (by omega)

/-- The leaves of a built tree are the blocks it was built over. -/
theorem Builds.leaves : leaves (kids (diskOf fs w.dev)) (height + 1) p = blocks := by
  induction height generalizing p blocks with
  | zero =>
    rw [leaves, Points.kids h]
    simp [leaves]
  | succ height ih =>
    obtain ⟨entries, hp, hall⟩ := h
    rw [leaves, hp.kids, flatMap_of_forall₂ (hall.imp fun _ _ hb => ih hb),
      chunks_flatten (pow256_pos _)]

theorem Builds.onDevice
    (hb : b ∈ inner (kids (diskOf fs w.dev)) (height + 1) p) : OnDevice fs w.dev b := by
  induction height generalizing p blocks with
  | zero =>
    obtain rfl : b = p := by simpa [Forest.inner] using hb
    exact Points.onDevice h
  | succ height ih =>
    obtain ⟨entries, hp, hall⟩ := h
    rw [Forest.inner, hp.kids] at hb
    rcases mem_cons.1 hb with rfl | hb
    · exact hp.onDevice
    obtain ⟨e, he, hb⟩ := mem_flatMap.1 hb
    obtain ⟨c, -, hc⟩ := forall₂_mem_right hall he
    exact ih hc hb

omit h in
/-- A built tree depends on its inner nodes only. -/
theorem Points.congr (h : Points fs w p entries) (hcount : w'.dev.sectorCount = w.dev.sectorCount)
    (hsame : diskOf fs w'.dev p = diskOf fs w.dev p) : Points fs w' p entries where
  pointer := h.pointer
  onDevice := by
    rw [OnDevice, hcount]
    exact h.onDevice
  content := hsame.trans h.content
  length := h.length
  pointers := h.pointers

theorem Builds.congr (hcount : w'.dev.sectorCount = w.dev.sectorCount)
    (hsame : ∀ b ∈ inner (kids (diskOf fs w.dev)) (height + 1) p,
      diskOf fs w'.dev b = diskOf fs w.dev b) : Builds fs w' height p blocks := by
  induction height generalizing p blocks with
  | zero => exact Points.congr h hcount (hsame p (by simp [Forest.inner]))
  | succ height ih =>
    obtain ⟨entries, hp, hall⟩ := h
    rw [Forest.inner, hp.kids] at hsame
    refine ⟨entries, hp.congr hcount (hsame p mem_cons_self), ?_⟩
    refine forall₂_imp_mem hall fun c e he hb => ih hb fun b hb' => hsame b ?_
    exact mem_cons_of_mem _ (mem_flatMap.2 ⟨e, he, hb'⟩)

end

/-- What one of the two writers leaves: a tree over `blocks` whose pointer blocks are the
allocated ones. -/
theorem stable_builds (fs : Ext2Fs) (height : ℕ) (blocks : List ℕ) : Stable fs fun p N w =>
    Builds fs w height p blocks ∧ N = inner (kids (diskOf fs w.dev)) (height + 1) p := by
  rintro p N w w' ⟨hb, rfl⟩ hsame hcount
  refine ⟨hb.congr hcount hsame, (tree_congr fun n hn => ?_).1.symm⟩
  rw [kids, kids, hsame n hn]

theorem writeIndirect_allocs (hbs : fs.blockSize = 1024) (height : ℕ)
    (hblocks : ∀ b ∈ blocks, Pointer b) :
    Allocs fs (writeIndirect fs height blocks) fun p N w => Builds fs w height p blocks ∧
    N = inner (kids (diskOf fs w.dev)) (height + 1) p := by
  induction height generalizing blocks with
  | zero =>
    have h := allocate_fill hbs (P := fun (_ : Unit) N _ => N = [])
      (fun _ _ _ _ h _ _ => h) (pure ()) (pure fun _ => rfl) fs.blockSize
      (fun _ => check (blocks.length * 4 ≤ fs.blockSize))
      (fun _ => storeU32s zero 0 blocks)
    refine mono h ?_
    rintro p N w ⟨-, N', rfl, rfl, hcheck, hdev, hdata, hp⟩
    have hlen := of_check hcheck
    have hpt : Points fs w p blocks := ⟨hp, hdev, hdata, by omega, hblocks⟩
    exact ⟨hpt, by simp [Forest.inner]⟩
  | succ height ih =>
    have hmap : Allocs fs (mapEach (writeIndirect fs height)
        (chunks ((fs.blockSize / 4) ^ (height + 1)) blocks)) _ :=
      mapEach (stable_builds fs height) fun c hc =>
        ih fun b hb => hblocks b (mem_of_mem_chunks hc hb)
    have h := allocate_fill hbs (stable_forall₂ (stable_builds fs height) _) _ hmap
      fs.blockSize (fun entries => check (entries.length * 4 ≤ fs.blockSize))
      (fun entries => storeU32s zero 0 entries)
    refine mono h ?_
    rintro p N w ⟨entries, N', rfl, ⟨hall, rfl⟩, hcheck, hdev, hdata, hp⟩
    have hlen := of_check hcheck
    have hpt : Points fs w p entries := ⟨hp, hdev, hdata, by omega, fun e he => by
      obtain ⟨c, -, hb⟩ := forall₂_mem_right hall he
      exact hb.pointer⟩
    rw [hbs] at hall
    exact ⟨⟨entries, hpt, hall⟩, by rw [Forest.inner, hpt.kids]⟩

end Builds

/-- Block `b` holds the `index`-th 1024 bytes of `data`, padded with zeros. -/
structure HoldsData (fs : Ext2Fs) (data : List UInt8) (index b : ℕ) (w : World) : Prop where
  pointer : Pointer b
  onDevice : OnDevice fs w.dev b
  content : ∀ j < 1024, diskOf fs w.dev b j = data.getD (index * 1024 + j) 0

/-- A tree over `blocks`, or the null pointer if there are none. -/
def Part (fs : Ext2Fs) (w : World) (height p : ℕ) (blocks : List ℕ) : Prop :=
  if blocks = [] then p = 0 else Builds fs w height p blocks

/-- The inode `inode` names a complete copy of `data` in the blocks `bs`. -/
structure Filled (fs : Ext2Fs) (w : World) (inode : Inode) (data : List UInt8) (bs : List ℕ) :
    Prop where
  size : inode.size = data.length
  count : bs.length = divCeil data.length 1024
  max : bs.length ≤ 12 + 256 + 256 * 256 + 256 * 256 * 256
  content : Forall₂ (fun index b => HoldsData fs data index b w) (range bs.length) bs
  direct : ∀ k (hk : k < 12), inode.blocks ⟨k, by omega⟩ = bs.getD k 0
  single : Part fs w 0 (inode.blocks 12) ((bs.drop 12).take 256)
  double : Part fs w 1 (inode.blocks 13) ((bs.drop 268).take 65536)
  triple : Part fs w 2 (inode.blocks 14) (bs.drop 65804)

section Fill
variable {fs : Ext2Fs}

theorem stable_holdsData (fs : Ext2Fs) (data : List UInt8) (index : ℕ) :
    Stable fs fun b N w => HoldsData fs data index b w ∧ N = [b] := by
  rintro b N w w' ⟨h, rfl⟩ hsame hcount
  refine ⟨⟨h.pointer, ?_, fun j hj => ?_⟩, rfl⟩
  · rw [OnDevice, hcount]
    exact h.onDevice
  · rw [hsame b (by simp), h.content j hj]

theorem stable_part (fs : Ext2Fs) (height : ℕ) (blocks : List ℕ) : Stable fs fun p N w =>
    Part fs w height p blocks ∧ N = treeOr (inner (kids (diskOf fs w.dev))) (height + 1) p := by
  rintro p N w w' ⟨hp, rfl⟩ hsame hcount
  unfold Part at hp ⊢
  split_ifs at hp ⊢ with hnil
  · simp [hp, treeOr]
  rw [treeOr, if_neg hp.pointer.1] at hsame ⊢
  rw [treeOr, if_neg hp.pointer.1]
  exact stable_builds fs height blocks p _ w w' ⟨hp, rfl⟩ hsame hcount

theorem writeIndirectIf_allocs (hbs : fs.blockSize = 1024) (height : ℕ)
    (hblocks : blocks' = blocks) (hneeded : needed = true ↔ blocks ≠ [])
    (hpt : ∀ b ∈ blocks, Pointer b) :
    Allocs fs (writeIndirectIf fs needed height blocks') fun p N w =>
      Part fs w height p blocks ∧ N = treeOr (inner (kids (diskOf fs w.dev))) (height + 1) p := by
  subst hblocks
  unfold writeIndirectIf
  split_ifs with hc
  · refine (writeIndirect_allocs hbs height hpt).mono ?_
    rintro p N w ⟨hb, rfl⟩
    rw [Part, if_neg (hneeded.1 hc), treeOr, if_neg hb.pointer.1]
    exact ⟨hb, rfl⟩
  · refine pure fun w => ?_
    rw [Part, if_pos (by simpa [hneeded] using hc)]
    simp [treeOr]

theorem drop_take_min (bs : List ℕ) (a k : ℕ) :
    (bs.drop a).take (min (bs.length - a) k) = (bs.drop a).take k := by
  rw [← take_take, take_of_length_le (by simp)]

theorem drop_eq_drop (h : a = c ∨ (bs.length ≤ a ∧ bs.length ≤ c)) : bs.drop a = bs.drop c := by
  rcases h with rfl | ⟨ha, hc⟩
  · rfl
  · rw [drop_of_length_le ha, drop_of_length_le hc]

theorem drop_take_ne_nil (hk : 0 < k) : (bs.drop a).take k ≠ [] ↔ a < bs.length := by
  rw [ne_eq, take_eq_nil_iff, drop_eq_nil_iff]
  omega

theorem chunk_getD (data : List UInt8) (index : ℕ) (hj : j < 1024) :
    ((data.take (min (index * 1024 + 1024) data.length)).drop (index * 1024)).getD j 0 =
      data.getD (index * 1024 + j) 0 := by
  rw [getD_eq_getElem?_getD, getD_eq_getElem?_getD, getElem?_drop]
  by_cases h : index * 1024 + j < data.length
  · rw [getElem?_take_of_lt (by omega)]
  · rw [getElem?_eq_none (by simp; omega), getElem?_eq_none (by omega)]

variable (hbs : fs.blockSize = 1024)
include hbs

theorem writeDataBlock_allocs (hchunk : chunk.length ≤ 1024) : Allocs fs (do
        let block ← allocateBlock fs
        writeDataBlock fs block chunk
        pure block)
      fun b N w => N = [b] ∧ Pointer b ∧ OnDevice fs w.dev b ∧
        diskOf fs w.dev b = ofList chunk := by
  have h := allocate_fill hbs (P := fun (_ : Unit) N _ => N = [])
    (fun _ _ _ _ h _ _ => h) (pure ()) (pure fun _ => rfl) 1024
    (fun _ => check (min chunk.length fs.blockSize ≤ 1024))
    (fun _ => ofList (chunk.take (min chunk.length fs.blockSize)))
  simp only [writeDataBlock, bind_assoc]
  refine mono h ?_
  rintro b N w ⟨-, N', rfl, rfl, -, hdev, hdata, hb⟩
  refine ⟨rfl, hb, hdev, ?_⟩
  rw [hdata, hbs, take_of_length_le (by omega)]

theorem dataBlocks_allocs (data : List UInt8) (n : ℕ) : Allocs fs (mapEach (fun index => do
        let block ← allocateBlock fs
        let start := index * fs.blockSize
        let stop := min (start + fs.blockSize) data.length
        writeDataBlock fs block ((data.take stop).drop start)
        pure block) (range n))
      fun bs N w => Forall₂ (fun index b => HoldsData fs data index b w) (range n) bs ∧
        N = bs.flatMap fun b => [b] := by
  refine mapEach (stable_holdsData fs data) fun index _ => ?_
  refine mono (writeDataBlock_allocs hbs (by simp [hbs]; omega)) ?_
  rintro b N w ⟨rfl, hb, hdev, hdata⟩
  refine ⟨⟨hb, hdev, fun j hj => ?_⟩, rfl⟩
  rw [hdata, hbs, ofList, chunk_getD data index hj]

/-- The writer fills fresh blocks with the data and names them in the inode it returns. -/
theorem fillInode_allocs (inode : Inode) (data : List UInt8) :
    Allocs fs (fillInode fs inode data) fun inode' N w => ∃ bs now, Filled fs w inode' data bs ∧
      N = bs ++ allInner (kids (diskOf fs w.dev)) inode'.roots ∧ now ≤ u32Max ∧
      inode' = { inode with blocks := inode'.blocks, size := data.length, mtime := now,
                            ctime := now } := by
  unfold fillInode
  dsimp only
  split_ifs with hmax
  · exact fail _
  rw [hbs, ext2DirectBlocks] at hmax
  refine bind (stable_forall₂ (stable_holdsData fs data) _)
    (dataBlocks_allocs hbs data _) fun bs hbs' => ?_
  obtain ⟨-, w₀, hbs₀, -⟩ := hbs'
  rw [hbs, ext2DirectBlocks]
  have hlen : bs.length = divCeil data.length 1024 := by simpa [hbs] using hbs₀.length_eq.symm
  have hpt : ∀ b ∈ bs, Pointer b := by
    intro b hb
    obtain ⟨_, -, h⟩ := forall₂_mem_right hbs₀ hb
    exact h.pointer
  have hsub : ∀ m n, ∀ b ∈ (bs.drop m).take n, Pointer b := fun m n b hb =>
    hpt b (drop_subset _ _ (take_subset _ _ hb))
  refine bind (stable_part fs 0 ((bs.drop 12).take 256))
    (writeIndirectIf_allocs hbs 0 (drop_take_min bs 12 256) ?_ (hsub _ _)) fun single _ => ?_
  · rw [decide_eq_true_iff, drop_take_ne_nil (by omega)]
    omega
  refine bind (stable_part fs 1 ((bs.drop 268).take 65536))
    (writeIndirectIf_allocs hbs 1 ?_ ?_ (hsub _ _)) fun double _ => ?_
  · rw [drop_take_min, drop_eq_drop (c := 268) (by omega)]
  · rw [decide_eq_true_iff, drop_take_ne_nil (by omega)]
    omega
  refine bind (stable_part fs 2 (bs.drop 65804))
    (writeIndirectIf_allocs hbs 2 (drop_eq_drop (by omega)) ?_
      fun b hb => hpt b (drop_subset _ _ hb)) fun triple _ => ?_
  · rw [decide_eq_true_iff, ne_eq, drop_eq_nil_iff]
    omega
  refine Allocs.bind (P := fun now N _ => N = [] ∧ now ≤ u32Max) (fun _ _ _ _ h _ _ => h)
    (Allocs.currentExt2Time fun _ _ hnow => ⟨rfl, hnow⟩) fun now _ => ?_
  refine Allocs.pure fun w N₄ h₄ N₃ h₃ N₂ h₂ N₁ h₁ N₀ h₀ => ?_
  refine ⟨bs, now, ⟨rfl, hlen, by omega, ?_, fun k hk => ?_, h₁.1, h₂.1, h₃.1⟩, ?_, h₄.2, rfl⟩
  · rw [hlen]
    exact h₀.1
  · exact if_pos (show (⟨k, _⟩ : Fin 15) < 12 from hk)
  rw [h₀.2, h₁.2, h₂.2, h₃.2, h₄.1, flatMap_singleton', allInner_eq]
  simp only [append_nil]
  rfl

end Fill

namespace Filled
variable {data : List UInt8}

theorem part_leaves (h : Part fs w height p blocks) :
    treeOr (leaves (kids (diskOf fs w.dev))) (height + 1) p = blocks := by
  unfold Part at h
  split_ifs at h with hnil
  · simp [h, treeOr, hnil]
  · rw [treeOr, if_neg h.pointer.1, h.leaves]

theorem blockBytes_eq (h : Forall₂ (fun index b => ∀ j < 1024, d b j = data.getD (index * 1024 + j) 0)
      (range' start n) bs) :
    blockBytes d bs = (range' (start * 1024) (n * 1024)).map fun k => data.getD k 0 := by
  induction n generalizing start bs with
  | zero =>
    obtain rfl : bs = [] := by simpa using h
    simp [blockBytes]
  | succ n ih =>
    obtain ⟨b, bs, hb, hrest, rfl⟩ := forall₂_cons_left_iff.1 h
    have hslice : (d b).slice 0 1024 =
        (range' (start * 1024) 1024).map fun k => data.getD k 0 := by
      rw [slice, range'_eq_map_range, map_map]
      refine map_congr_left fun j hj => ?_
      rw [Nat.zero_add, hb j (mem_range.1 hj)]
      rfl
    have hih := ih hrest
    rw [blockBytes] at hih ⊢
    rw [flatMap_cons, hslice, hih, show (start + 1) * 1024 = start * 1024 + 1024 by omega,
      show (n + 1) * 1024 = 1024 + n * 1024 by omega, ← range'_append_1, map_append]

/-- The byte at an offset of a built tree is in one of the blocks it was built over. -/
theorem builds_treeByte (h : Builds fs w height p blocks) (ho : o / 1024 < blocks.length) :
    treeByte (diskOf fs w.dev) (height + 1) p o =
      some (diskOf fs w.dev (blocks.getD (o / 1024) 0) (o % 1024)) := by
  induction height generalizing p o blocks with
  | zero =>
    have hb : blocks.getD (o / 1024) 0 ≠ 0 := by
      rw [getD_eq_getElem _ _ ho]
      exact (Points.pointers h _ (getElem_mem ho)).1
    rw [treeByte, if_neg (Points.pointer h).1, Points.u32At h, treeByte,
      show span 0 = 1024 from rfl, if_neg hb]
  | succ height ih =>
    obtain ⟨entries, hp, hall⟩ := h
    obtain ⟨m, hm⟩ : ∃ m, m = 256 ^ (height + 1) := ⟨_, rfl⟩
    have hpos : 0 < m := hm ▸ pow256_pos _
    rw [← hm] at hall
    have hle : o / 1024 / m * m ≤ o / 1024 := div_mul_le_self _ _
    have hkc : o / 1024 / m < (chunks m blocks).length := by
      by_contra hge
      have := le_mul_of_chunks_le hpos (Nat.le_of_not_lt hge)
      omega
    have hchunk := hall.get hkc (hall.length_eq ▸ hkc)
    rw [chunks_get, ← getD_eq_get _ 0] at hchunk
    have hmod := mod_lt (o / 1024) hpos
    have hsum := div_add_mod' (o / 1024) m
    rw [treeByte, if_neg hp.pointer.1, hp.u32At, show span (height + 1) = 1024 * m by rw [span, hm],
      ← Nat.div_div_eq_div_mul, ih hchunk, mod_mul_right_div_self, mod_mul_right_mod,
      getD_eq_getElem?_getD, getElem?_take_of_lt hmod, getElem?_drop, hsum,
      ← getD_eq_getElem?_getD]
    rw [mod_mul_right_div_self, length_take, length_drop]
    omega

theorem part_treeByte (h : Part fs w height p blocks) (ho : o / 1024 < blocks.length) :
    treeByte (diskOf fs w.dev) (height + 1) p o =
      some (diskOf fs w.dev (blocks.getD (o / 1024) 0) (o % 1024)) := by
  unfold Part at h
  split_ifs at h with hnil
  · simp [hnil] at ho
  · exact builds_treeByte h ho

variable (h : Filled fs w inode data bs)
include h

theorem holdsData (hb : b ∈ bs) : ∃ index, HoldsData fs data index b w := by
  obtain ⟨index, -, hd⟩ := forall₂_mem_right h.content hb
  exact ⟨index, hd⟩

theorem direct_filter : inode.direct.filter (· ≠ 0) = bs.take 12 := by
  have hdirect : inode.direct = bs.take 12 ++ replicate (12 - bs.length) 0 := by
    apply ext_getElem
    · simp [Inode.direct]
      omega
    intro k h₁ h₂
    have hk : k < 12 := by simpa [Inode.direct] using h₁
    rw [show inode.direct[k] = inode.blocks ⟨k, by omega⟩ from List.getElem_ofFn _, h.direct k hk]
    by_cases hlt : k < bs.length
    · rw [getD_eq_getElem _ _ hlt, getElem_append_left (by simp; omega), getElem_take]
    · rw [getD_eq_default _ _ (by omega), getElem_append_right (by simp; omega), getElem_replicate]
  rw [hdirect, filter_append, filter_eq_self.2]
  · simp
  intro b hb
  obtain ⟨_, hd⟩ := h.holdsData (take_subset _ _ hb)
  simpa using hd.pointer.1

theorem dataBlocks_eq : dataBlocks (diskOf fs w.dev) inode = bs := by
  have h268 : bs.drop 268 = (bs.drop 12).drop 256 := by rw [drop_drop]
  have h65804 : bs.drop 65804 = (bs.drop 268).drop 65536 := by rw [drop_drop]
  rw [Ext2.dataBlocks_eq, h.direct_filter, part_leaves h.single, part_leaves h.double,
    part_leaves h.triple, h65804, append_assoc, take_append_drop, h268,
    append_assoc, take_append_drop, take_append_drop]

/-- The whole-file reader returns what was written. -/
theorem dataOf_eq : dataOf (diskOf fs w.dev) inode = .ok data := by
  have hbytes : blockBytes (diskOf fs w.dev) bs =
      (range' 0 (bs.length * 1024)).map fun k => data.getD k 0 := by
    have := h.content.imp fun _ _ hd => hd.content
    rw [range_eq_range'] at this
    simpa using blockBytes_eq this
  have hmax := h.max
  have hcount := h.count
  rw [divCeil] at hcount
  rw [dataOf, h.dataBlocks_eq, h.size, if_neg (by omega), blockBytes_length,
    if_pos (by omega), hbytes]
  congr 1
  apply ext_getElem
  · simp
    omega
  · intro k h₁ h₂
    simp [h₂]

/-- The pointer tree refers to the data blocks and the pointer blocks, each once. -/
theorem refs_perm : (refs (diskOf fs w.dev) inode).Perm
    (bs ++ allInner (kids (diskOf fs w.dev)) inode.roots) := by
  refine (allNodes_perm _).trans (perm_append_comm.trans ?_)
  rw [show allLeaves (kids (diskOf fs w.dev)) inode.roots = bs from h.dataBlocks_eq]

theorem onDevice (hb : b ∈ refs (diskOf fs w.dev) inode) : OnDevice fs w.dev b := by
  rw [h.refs_perm.mem_iff, mem_append, allInner_eq] at hb
  rcases hb with hb | hb
  · obtain ⟨_, hd⟩ := h.holdsData hb
    exact hd.onDevice
  have hpart : ∀ height p blocks, Part fs w height p blocks →
      b ∈ treeOr (inner (kids (diskOf fs w.dev))) (height + 1) p →
      OnDevice fs w.dev b := by
    intro height p blocks hp hb
    unfold Part at hp
    split_ifs at hp with hnil
    · simp [hp, treeOr] at hb
    · rw [treeOr, if_neg hp.pointer.1] at hb
      exact hp.onDevice hb
  simp only [mem_append] at hb
  rcases hb with hb | hb | hb
  · exact hpart 0 _ _ h.single hb
  · exact hpart 1 _ _ h.double hb
  · exact hpart 2 _ _ h.triple hb

/-- Each byte of the file is the one that was written. -/
theorem byteAt_eq (ho : o < data.length) : inode.byteAt (diskOf fs w.dev) o = data[o]? := by
  have hcount := h.count
  rw [divCeil] at hcount
  have hob : o / 1024 < bs.length := by omega
  have hd : HoldsData fs data (o / 1024) (bs.getD (o / 1024) 0) w := by
    rw [getD_eq_getElem _ _ hob]
    simpa using h.content.get (by simpa using hob) hob
  have hbyte : some (diskOf fs w.dev (bs.getD (o / 1024) 0) (o % 1024)) = data[o]? := by
    rw [hd.content _ (mod_lt _ (by decide)), div_add_mod', getD_eq_getElem _ _ ho,
      getElem?_eq_getElem ho]
  have hpart : ∀ {height p} m n, Part fs w height p ((bs.drop m).take n) → m * 1024 ≤ o →
      o < (m + n) * 1024 → treeByte (diskOf fs w.dev) (height + 1) p (o - m * 1024) = data[o]? := by
    intro height p m n hp hle hlt
    have hdiv : (o - m * 1024) / 1024 = o / 1024 - m := by omega
    rw [part_treeByte hp (by simp only [length_take, length_drop]; omega), ← hbyte, hdiv,
      getD_eq_getElem?_getD, getElem?_take_of_lt (by omega), getElem?_drop,
      Nat.add_sub_cancel' (by omega), ← getD_eq_getElem?_getD]
    congr 2
    omega
  rw [Inode.byteAt, show 12 * span 0 = 12 * 1024 from rfl, show span 1 = 256 * 1024 from rfl,
    show span 2 = 65536 * 1024 from rfl]
  split_ifs with h₀ h₁ h₂
  · have hk : o / 1024 < 12 := by omega
    have hdirect : inode.direct.getD (o / 1024) 0 = bs.getD (o / 1024) 0 := by
      rw [← h.direct _ hk, getD_eq_getElem _ _ (by simpa [Inode.direct] using hk)]
      exact List.getElem_ofFn _
    rw [treeByte, show span 0 = 1024 from rfl, hdirect, if_neg hd.pointer.1, hbyte]
  · exact hpart 12 256 h.single (by omega) (by omega)
  · exact hpart 268 65536 h.double (by omega) (by omega)
  · refine hpart 65804 bs.length ?_ (by omega) (by omega)
    rw [take_of_length_le (by simp)]
    exact h.triple

/-- The range reader copies the bytes of the window out of what was written. -/
theorem readInodeRange_eq (hbs : fs.blockSize = 1024) (offset : ℕ) (output : List UInt8) :
    readInodeRange fs inode offset output w.dev = .ok (min output.length (data.length - offset),
        (data.drop offset).take (min output.length (data.length - offset)) ++
          output.drop (min output.length (data.length - offset))) := by
  obtain ⟨len, hlen⟩ : ∃ len, len = min output.length (data.length - offset) := ⟨_, rfl⟩
  rw [← hlen]
  by_cases h0 : len = 0
  · rw [readInodeRange, h.size, if_pos, h0]
    · simp
    · rw [← length_eq_zero_iff]
      omega
  have hmax := h.max
  have hcount := h.count
  rw [divCeil] at hcount
  have hat : ∀ k < len, inode.byteAt (diskOf fs w.dev) (offset + k) = data[offset + k]? :=
    fun k hk => h.byteAt_eq (by omega)
  have hall : byteCount (inode.byteAt (diskOf fs w.dev)) offset len = len :=
    byteCount_eq_iff.2 fun k hk => by
      rw [hat k hk, getElem?_eq_getElem (by omega)]
      rfl
  have hlimit : sizeLimit = (12 + 256 + 256 * 256 + 256 * 256 * 256) * 1024 := by decide +kernel
  rw [Ext2.readInodeRange_eq hbs (fun b hb => h.onDevice hb) (by omega) (h.size.symm ▸ hlen)
    (by omega), if_pos (.inr hall), hall, window_eq (by omega) (by omega) hat]

end Filled

end Ristux.Ext2
