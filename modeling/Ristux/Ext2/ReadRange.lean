import Ristux.Ext2.ReadData

-- The reader walks the pointer trees with a logical offset.

variable {content : ℕ → Option UInt8} {offset n a b level : ℕ}

namespace Ristux.Ext2
open Lib List Res Nat Inode

/-- The bytes below one pointer of a tree of the given height. -/
def span (level : ℕ) : ℕ := 1024 * 256 ^ level

theorem span_succ (level : ℕ) : span (level + 1) = 256 * span level := by
  rw [span, span, pow_succ]
  ring

/-- The tree of the given height below `b` shows the bytes of `content` from offset `start`
on, as far as they lie before `stop`. Below a null pointer to a pointer block there are no
bytes, below a null data pointer there are zeros. -/
def Shows (fs : Ext2Fs) (dev : Device) (content : ℕ → Option UInt8) (stop : ℕ) :
    ℕ → ℕ → ℕ → Prop
  | 0, b, start => start < stop → (b ≠ 0 → OnDevice fs dev b) ∧ ∀ j < 1024, start + j < stop →
        content (start + j) = some (if b = 0 then 0 else diskOf fs dev b j)
  | level + 1, b, start => start < stop →
      if b = 0 then ∀ j < span (level + 1), start + j < stop → content (start + j) = none
      else OnDevice fs dev b ∧ ∀ k < 256, Shows fs dev content stop level
        ((diskOf fs dev b).u32At (4 * k)) (start + k * span level)

/-- The number of bytes `content` has among the `n` from `offset` on. -/
def byteCount (content : ℕ → Option UInt8) (offset n : ℕ) : ℕ :=
  (range n).countP fun k => (content (offset + k)).isSome

theorem byteCount_le (content : ℕ → Option UInt8) (offset n : ℕ) :
    byteCount content offset n ≤ n := by
  have h := countP_le_length (p := fun k => (content (offset + k)).isSome)
    (l := range n)
  simpa [byteCount] using h

theorem byteCount_eq_iff :
    byteCount content offset n = n ↔ ∀ k < n, (content (offset + k)).isSome := by
  have h := countP_eq_length (p := fun k => (content (offset + k)).isSome)
    (l := range n)
  simpa [byteCount] using h

theorem byteCount_add (content : ℕ → Option UInt8) (offset n m : ℕ) :
    byteCount content offset (n + m) =
      byteCount content offset n + byteCount content (offset + n) m := by
  rw [byteCount, range_add, countP_append, countP_map]
  simp only [byteCount, Function.comp_def, add_assoc]

theorem byteCount_none
    (h : ∀ k < n, content (offset + k) = none) : byteCount content offset n = 0 := by
  rw [byteCount, countP_eq_zero]
  intro k hk
  simp [h k (mem_range.1 hk)]

/-- The bytes of the window from `offset` to `stop` are copied up to the logical offset;
where there are none the output is as it was. -/
structure Copied (content : ℕ → Option UInt8) (offset stop : ℕ) (output : List UInt8)
    (c : Copy) : Prop where
  count : c.copied = byteCount content offset (min c.logicalOffset stop - offset)
  bytes : c.output = output.mapIdx fun k x =>
    if offset + k < min c.logicalOffset stop then (content (offset + k)).getD x else x

/-- The window the range reader leaves behind when it reaches the end. -/
def window (content : ℕ → Option UInt8) (offset len : ℕ) (output : List UInt8) : List UInt8 :=
  output.mapIdx fun k x => if k < len then (content (offset + k)).getD x else x

/-- The run goes on to the logical offset `target`, or to the end of the window if that comes
first, and the window is copied up to there. -/
def Reaches (content : ℕ → Option UInt8) (offset len : ℕ) (output : List UInt8) (run : R Copy)
    (target : ℕ) : Prop :=
  ∃ c, run = .ok c ∧ Copied content offset (offset + len) output c ∧
    min c.logicalOffset (offset + len) = min target (offset + len)

section Range
variable {fs : Ext2Fs} {output : List UInt8}

section
variable (h : Copied content offset (offset + len) output c)
include h

theorem Copied.done_iff (hlen : 0 < len) :
    (c.logicalOffset ≥ offset + len ∨ c.copied = len) ↔ offset + len ≤ c.logicalOffset := by
  have := h.count
  have := byteCount_le content offset (min c.logicalOffset (offset + len) - offset)
  omega

theorem Copied.final (hdone : offset + len ≤ c.logicalOffset) :
    c.copied = byteCount content offset len ∧ c.output = window content offset len output := by
  have hstop : min c.logicalOffset (offset + len) = offset + len := by omega
  refine ⟨?_, ?_⟩
  · rw [h.count, hstop, Nat.add_sub_cancel_left]
  · rw [h.bytes, hstop, window]
    simp only [add_lt_add_iff_left]

end

/-- One stage of the reader: the window is complete, or the next stage starts at `target`. -/
theorem Reaches.stage {next : Copy → R (ℕ × List UInt8)}
    (h : Reaches content offset len output run target) (hlen : 0 < len)
    (hexit : offset + len ≤ target →
      .ok (byteCount content offset len, window content offset len output) = result)
    (hnext : ∀ c, Copied content offset (offset + len) output c → c.logicalOffset = target →
      target < offset + len → next c = result) :
    (run >>= fun c => if decide (c.logicalOffset ≥ offset + len ∨ c.copied = len) then
      .ok (c.copied, c.output) else next c) = result := by
  obtain ⟨c, hrun, hc, hL⟩ := h
  rw [hrun, ok_bind]
  by_cases hd : offset + len ≤ c.logicalOffset
  · rw [if_pos (decide_eq_true ((hc.done_iff hlen).2 hd)), (hc.final hd).1, (hc.final hd).2]
    exact hexit (by omega)
  · rw [if_neg (by rwa [decide_eq_true_iff, hc.done_iff hlen])]
    exact hnext c hc (by omega) (by omega)

theorem checkedAdd_of_le (h : a + b ≤ u64Max) : checkedAdd a b = .ok (a + b) := if_pos h

theorem skip_of_le (h : c.logicalOffset + n ≤ u64Max) : skip n c =
    .ok { c with logicalOffset := c.logicalOffset + n } := by
  rw [skip, checkedAdd_of_le h, ok_bind]

theorem span_le (h : level ≤ 3) : span level ≤ 2 ^ 34 := by
  have : span level ≤ span 3 := mul_le_mul_left _ (Nat.pow_le_pow_right (by decide) h)
  exact this.trans (by decide)

theorem indirectSpanBytes_eq (hbs : fs.blockSize = 1024) (h : level ≤ 3) :
    indirectSpanBytes fs level = .ok (span level) := by
  induction level with
  | zero => rw [indirectSpanBytes, hbs]; rfl
  | succ level ih =>
    have hle := span_le h
    rw [span_succ, mul_comm] at hle
    rw [indirectSpanBytes, ih (by omega), ok_bind, hbs, span_succ, mul_comm 256]
    exact if_pos (hle.trans (by decide))

/-- Stepping over a range without bytes. -/
theorem Copied.over (hc : Copied content offset (offset + len) output c)
    (hnone : ∀ j < n, c.logicalOffset + j < offset + len → content (c.logicalOffset + j) = none) :
    Copied content offset (offset + len) output { c with logicalOffset := c.logicalOffset + n } :=
    by
  have hat : ∀ o, c.logicalOffset ≤ o → o < c.logicalOffset + n → o < offset + len →
      content o = none := by
    intro o hle hlt hstop
    have h := hnone (o - c.logicalOffset) (by omega) (by omega)
    rwa [Nat.add_sub_cancel' hle] at h
  obtain ⟨m, hm⟩ : ∃ m, min (c.logicalOffset + n) (offset + len) - offset =
      (min c.logicalOffset (offset + len) - offset) + m := ⟨_, (Nat.add_sub_cancel' (by omega)).symm⟩
  refine ⟨?_, ?_⟩
  · rw [hc.count, hm, byteCount_add, byteCount_none (n := m), add_zero]
    intro k hk
    exact hat _ (by omega) (by omega) (by omega)
  rw [hc.bytes]
  refine congrArg (fun f => output.mapIdx f) (funext fun k => funext fun x => ?_)
  dsimp only
  by_cases hold : offset + k < min c.logicalOffset (offset + len)
  · rw [if_pos hold, if_pos (by omega)]
  split_ifs with hnew
  · rw [hat (offset + k) (by omega) (by omega) (by omega), Option.getD_none]
  · rfl

/-- A loop over pointers of one span each, the `k`-th of them at offset `base + k * step`. -/
theorem copyEntries_copied (hlen : 0 < len) (visit : ℕ → Copy → R Copy) (step : ℕ)
    (entries : List ℕ) (hc : Copied content offset (offset + len) output c)
    (hvisit : ∀ k (hk : k < entries.length) c', Copied content offset (offset + len) output c' →
      c'.logicalOffset = c.logicalOffset + k * step → c'.logicalOffset < offset + len →
      Reaches content offset len output (visit (entries.get ⟨k, hk⟩) c') (c'.logicalOffset + step)) :
    Reaches content offset len output (copyEntries (offset + len) len visit entries c)
      (c.logicalOffset + entries.length * step) := by
  induction entries generalizing c with
  | nil => exact ⟨c, rfl, hc, by simp⟩
  | cons entry entries ih =>
    rw [copyEntries]
    by_cases hdone : offset + len ≤ c.logicalOffset
    · exact ⟨c, if_pos ((hc.done_iff hlen).2 hdone), hc, by omega⟩
    rw [if_neg (mt (hc.done_iff hlen).1 hdone)]
    obtain ⟨c₁, hv, hc₁, hL⟩ := hvisit 0 (by simp) c hc (by simp) (by omega)
    rw [show visit entry c = .ok c₁ from hv, ok_bind, length_cons, succ_mul]
    by_cases hend : offset + len ≤ c₁.logicalOffset
    · refine ⟨c₁, ?_, hc₁, by omega⟩
      cases entries with
      | nil => rfl
      | cons e es => exact if_pos ((hc₁.done_iff hlen).2 hend)
    have hL : c₁.logicalOffset = c.logicalOffset + step := by omega
    obtain ⟨c₂, hrun, hc₂, hL₂⟩ := ih hc₁ fun k hk c' hc' hk' hlt' =>
      hvisit (k + 1) (by simpa using hk) c' hc' (by rw [hk', hL, succ_mul]; omega) hlt'
    refine ⟨c₂, hrun, hc₂, ?_⟩
    rw [hL₂, hL]
    congr 1
    omega

/-- One pointer of a tree of the given height, given what a visit of one entry below it does. -/
theorem copyIndirectRange_of_visit (hbs : fs.blockSize = 1024) (hlen : 0 < len)
    (hmax : offset + len + 2 ^ 40 ≤ u64Max) (hlevel : level < 3)
    (hc : Copied content offset (offset + len) output c)
    (hb : Shows fs dev content (offset + len) (level + 1) b c.logicalOffset)
    (hvisit : ∀ e c', Copied content offset (offset + len) output c' →
      Shows fs dev content (offset + len) level e c'.logicalOffset →
      c'.logicalOffset < offset + len → Reaches content offset len output
        (if level = 0 then copyDataBlockRange fs dev e offset len c' >>= skip fs.blockSize
          else if e = 0 then indirectSpanBytes fs level >>= fun span => skip span c'
          else copyIndirectRange fs dev offset len level e c') (c'.logicalOffset + span level)) :
    Reaches content offset len output (copyIndirectRange fs dev offset len (level + 1) b c)
      (c.logicalOffset + span (level + 1)) := by
  rw [copyIndirectRange, checkedAdd_of_le (by omega), ok_bind]
  by_cases hdone : offset + len ≤ c.logicalOffset
  · exact ⟨c, if_pos ((hc.done_iff hlen).2 hdone), hc, by omega⟩
  have hshown := hb (by omega)
  rw [if_neg (mt (hc.done_iff hlen).1 hdone)]
  have hspan := span_le hlevel
  by_cases hb0 : b = 0
  · rw [if_pos hb0] at hshown ⊢
    rw [indirectSpanBytes_eq hbs hlevel, ok_bind, skip_of_le (by omega)]
    exact ⟨_, rfl, hc.over hshown, rfl⟩
  rw [if_neg hb0] at hshown ⊢
  obtain ⟨hdev, hkids⟩ := hshown
  have hcount : (entriesIn (diskOf fs dev b)).length = 256 := by simp [entriesIn]
  rw [readIndirectEntries_of_onDevice hbs hdev, ok_bind, span_succ, ← hcount]
  refine copyEntries_copied hlen _ _ _ hc fun k hk c' hc' hL hlt => ?_
  have hkid := hkids k (hcount ▸ hk)
  rw [← hL] at hkid
  have hget : (entriesIn (diskOf fs dev b)).get ⟨k, hk⟩ = (diskOf fs dev b).u32At (4 * k) := by
    simp [entriesIn]
  rw [hget]
  exact hvisit _ c' hc' hkid hlt

/-- Placing the bytes from position `n` on. -/
theorem splice_mapIdx {f : ℕ → UInt8 → UInt8} (hout : n + bytes.length ≤ output.length)
    (hbytes : ∀ j (hj : j < bytes.length) x, f (n + j) x = bytes.get ⟨j, hj⟩) :
    splice (output.mapIdx fun k x => if k < n then f k x else x) n bytes =
      output.mapIdx fun k x => if k < n + bytes.length then f k x else x := by
  apply ext_getElem
  · simp [splice]
    omega
  intro k h₁ h₂
  have hk : k < output.length := by simpa using h₂
  simp only [splice, getElem_append, getElem_mapIdx, getElem_take,
    getElem_drop, length_append, length_take, length_mapIdx]
  by_cases hn : k < n
  · rw [dif_pos (by omega), dif_pos (by omega), if_pos hn, if_pos (by omega)]
  by_cases hb : k < n + bytes.length
  · have h := hbytes (k - n) (by omega) (output.get ⟨k, hk⟩)
    rw [Nat.add_sub_cancel' (by omega)] at h
    rw [dif_pos (by omega), dif_neg (by omega), if_pos hb]
    simp only [get_eq_getElem] at h
    rw [h]
    congr 1
    omega
  · rw [dif_neg (by omega), if_neg (by omega), if_neg hb]
    congr 1
    omega

section Copy
variable (hbs : fs.blockSize = 1024) (hlen : 0 < len) (hout : len ≤ output.length)
  (hmax : offset + len + 2 ^ 40 ≤ u64Max)
include hbs hlen hout hmax

theorem copyDataBlockRange_copied (hc : Copied content offset (offset + len) output c)
    (hb : Shows fs dev content (offset + len) 0 b c.logicalOffset)
    (hlt : c.logicalOffset < offset + len) : Reaches content offset len output
      (copyDataBlockRange fs dev b offset len c >>= skip fs.blockSize)
      (c.logicalOffset + span 0) := by
  obtain ⟨hdev, hbytes⟩ := hb hlt
  obtain ⟨L, m, out⟩ := c
  have hcount : m = byteCount content offset (min L (offset + len) - offset) := hc.count
  have hcopied : out = output.mapIdx fun k x =>
    if offset + k < min L (offset + len) then (content (offset + k)).getD x else x := hc.bytes
  simp only at hlt hbytes ⊢
  have hnext : ∀ m out', skip 1024 ⟨L, m, out'⟩ = .ok ⟨L + 1024, m, out'⟩ :=
    fun m out' => skip_of_le (by simp only; omega)
  rw [copyDataBlockRange, checkedAdd_of_le (by omega), ok_bind, hbs]
  dsimp only
  rw [checkedAdd_of_le (by omega), ok_bind]
  by_cases hbefore : L + 1024 ≤ offset
  · rw [if_pos (.inl hbefore), ok_bind, hnext]
    refine ⟨_, rfl, ⟨?_, ?_⟩, rfl⟩
    · rw [hcount, show min L (offset + len) - offset = 0 by omega,
        show min (L + 1024) (offset + len) - offset = 0 by omega]
    rw [hcopied]
    refine congrArg (fun f => output.mapIdx f) (funext fun k => funext fun x => ?_)
    simp only
    rw [if_neg (by omega), if_neg (by omega)]
  obtain ⟨stop, hstop⟩ : ∃ stop, stop = if offset + len < L + 1024 then offset + len - L else 1024 :=
    ⟨_, rfl⟩
  have hstop' : L + stop = min (L + 1024) (offset + len) := by
    split_ifs at hstop <;> omega
  obtain ⟨n, hn⟩ : ∃ n, n = min L (offset + len) - offset := ⟨_, rfl⟩
  rw [if_neg (by omega), ← hstop, if_neg (by omega), checkedAdd_of_le (by omega), ok_bind,
    if_neg (by omega)]
  have hoff : L + (offset - L) - offset = n := by omega
  have houtlen : out.length = output.length := by simp [hcopied]
  obtain ⟨bytes, hread, hblen, hget⟩ : ∃ bytes : List UInt8, (∀ place : List UInt8 → R Copy,
        (if b = 0 then (.ok (replicate (stop - (offset - L)) 0) : R (List UInt8)) >>= place
          else readBlockSized fs b 1024 dev >>= fun data =>
            (.ok (data.slice (offset - L) (stop - (offset - L))) : R (List UInt8)) >>= place) =
          place bytes) ∧
      bytes.length = stop - (offset - L) ∧
      ∀ j (hj : j < bytes.length), content (offset + (n + j)) = some (bytes.get ⟨j, hj⟩) := by
    have hat : ∀ j < stop - (offset - L), content (offset + (n + j)) =
        some (if b = 0 then 0 else diskOf fs dev b (offset - L + j)) := by
      intro j hj
      rw [← hbytes (offset - L + j) (by omega) (by omega)]
      congr 1
      omega
    by_cases hb0 : b = 0
    · refine ⟨_, fun place => (if_pos hb0).trans (ok_bind _ _), by simp, fun j hj => ?_⟩
      rw [hat j (by simpa using hj), if_pos hb0]
      simp
    refine ⟨(diskOf fs dev b).slice (offset - L) (stop - (offset - L)),
      fun place => ?_, Buf.slice_length _ _ _, fun j hj => ?_⟩
    · rw [if_neg hb0, readBlockSized_of_onDevice hbs le_rfl (hdev hb0), ok_bind, ok_bind]
    · rw [hat j (by simpa using hj), if_neg hb0]
      simp [Buf.slice]
  have hmore : ∀ k, (offset + k < min (L + 1024) (offset + len)) = (k < n + bytes.length) := by
    intro k
    rw [hblen]
    exact propext (by omega)
  have hless : ∀ k, (offset + k < min L (offset + len)) = (k < n) := by
    intro k
    exact propext (by omega)
  have hm : m ≤ n := hcount ▸ hn ▸ byteCount_le _ _ _
  rw [hoff, check_of (by omega), ok_bind, hread,
    checkedAdd_of_le (by omega), ok_bind, ok_bind, hnext]
  refine ⟨_, rfl, ⟨?_, ?_⟩, rfl⟩
  · have hnew : byteCount content (offset + n) bytes.length = bytes.length :=
      byteCount_eq_iff.2 fun k hk => by rw [add_assoc, hget k hk]; rfl
    rw [hcount, ← hn, show min (L + 1024) (offset + len) - offset = n + bytes.length by omega,
      byteCount_add, hnew, hblen]
  simp only [hmore]
  rw [hcopied]
  simp only [hless]
  refine splice_mapIdx (by omega) fun j hj x => ?_
  rw [hget j hj, Option.getD_some]

theorem copyIndirectRange_copied (hlevel : level < 3)
    (hc : Copied content offset (offset + len) output c)
    (hb : Shows fs dev content (offset + len) (level + 1) b c.logicalOffset) :
    Reaches content offset len output (copyIndirectRange fs dev offset len (level + 1) b c)
      (c.logicalOffset + span (level + 1)) := by
  induction level generalizing b c with
  | zero =>
    exact copyIndirectRange_of_visit hbs hlen hmax hlevel hc hb fun e c' hc' he hlt =>
      copyDataBlockRange_copied hbs hlen hout hmax hc' he hlt
  | succ level ih =>
    refine copyIndirectRange_of_visit hbs hlen hmax hlevel hc hb fun e c' hc' he hlt => ?_
    by_cases he0 : e = 0
    · have hspan := span_le hlevel.le
      have hnone := he hlt
      rw [if_pos he0] at hnone ⊢
      rw [indirectSpanBytes_eq hbs hlevel.le, ok_bind, skip_of_le (by omega)]
      exact ⟨_, rfl, hc'.over hnone, rfl⟩
    · rw [if_neg he0]
      exact ih (by omega) hc' he

variable {inode : Inode}

theorem copyDirect_copied (hdirect : ∀ k (hk : k < 12),
      Shows fs dev content (offset + len) 0 (inode.blocks ⟨k, by omega⟩) (k * span 0)) :
    Reaches content offset len output (copyEntries (offset + len) len
      (fun block c => copyDataBlockRange fs dev block offset len c >>= skip fs.blockSize)
      inode.direct ⟨0, 0, output⟩) (12 * span 0) := by
  have hc₀ : Copied content offset (offset + len) output ⟨0, 0, output⟩ :=
    ⟨by simp [byteCount], by apply ext_getElem <;> simp⟩
  have hcount : inode.direct.length = 12 := by simp [direct]
  have h := copyEntries_copied hlen (fun block c =>
    copyDataBlockRange fs dev block offset len c >>= skip fs.blockSize) (span 0) inode.direct hc₀
    fun k hk c' hc' hL hlt => by
      have hkid := hdirect k (hcount ▸ hk)
      rw [zero_add] at hL
      rw [← hL] at hkid
      rw [show inode.direct.get ⟨k, hk⟩ = inode.blocks ⟨k, by omega⟩ by
        rw [get_eq_getElem]; exact List.getElem_ofFn _]
      exact copyDataBlockRange_copied hbs hlen hout hmax hc' hkid hlt
  rwa [hcount, zero_add] at h

/-- The range reader copies and counts the bytes that there are. It only notices missing
ones when the window reaches into the tree of the triple-indirect block. -/
theorem readInodeRange_of_shows (hlen' : len = min output.length (inode.size - offset))
    (hcap : offset + len ≤ 12 * span 0 + span 1 + span 2 + span 3)
    (hdirect : ∀ k (hk : k < 12), Shows fs dev content (offset + len) 0 (inode.blocks ⟨k, by omega⟩)
      (k * span 0))
    (hsingle : Shows fs dev content (offset + len) 1 (inode.blocks 12) (12 * span 0))
    (hdouble : Shows fs dev content (offset + len) 2 (inode.blocks 13) (12 * span 0 + span 1))
    (htriple : Shows fs dev content (offset + len) 3 (inode.blocks 14)
      (12 * span 0 + span 1 + span 2)) : readInodeRange fs inode offset output dev =
      if offset + len ≤ 12 * span 0 + span 1 + span 2 ∨ byteCount content offset len = len then
        .ok (byteCount content offset len, window content offset len output)
      else err .unsupported := by
  -- The spans stay names: they are large numbers once they are evaluated.
  obtain ⟨s₀, hs₀⟩ : ∃ s, s = 12 * span 0 := ⟨_, rfl⟩
  obtain ⟨s₁, hs₁⟩ : ∃ s, s = span 1 := ⟨_, rfl⟩
  obtain ⟨s₂, hs₂⟩ : ∃ s, s = span 2 := ⟨_, rfl⟩
  obtain ⟨s₃, hs₃⟩ : ∃ s, s = span 3 := ⟨_, rfl⟩
  simp only [← hs₀, ← hs₁, ← hs₂, ← hs₃] at hcap hsingle hdouble htriple ⊢
  have hne : output ≠ [] := by
    rintro rfl
    simp at hout
    omega
  rw [readInodeRange, if_neg (by simp [hne]; omega)]
  dsimp only
  rw [← hlen', checkedAdd_of_le (by omega), ok_bind]
  refine (copyDirect_copied hbs hlen hout hmax hdirect).stage hlen
    (fun h => (if_pos (.inl (by omega))).symm) fun c₁ hc₁ hL₁ _ => ?_
  rw [← hs₀] at hL₁
  refine (copyIndirectRange_copied hbs hlen hout hmax (by decide) hc₁ (hL₁.symm ▸ hsingle)).stage
    hlen (fun (h : _ ≤ _ + span 1) => (if_pos (.inl (by omega))).symm) fun c₂ hc₂ hL₂ _ => ?_
  simp only [reduceAdd, ← hs₁, hL₁] at hL₂
  refine (copyIndirectRange_copied hbs hlen hout hmax (by decide) hc₂ (hL₂.symm ▸ hdouble)).stage
    hlen (fun (h : _ ≤ _ + span 2) => (if_pos (.inl (by omega))).symm) fun c₃ hc₃ hL₃ hmore => ?_
  simp only [reduceAdd, ← hs₂, hL₂] at hL₃ hmore
  obtain ⟨c₄, hrun, hc₄, hL₄⟩ :=
    copyIndirectRange_copied hbs hlen hout hmax (by decide) hc₃ (hL₃.symm ▸ htriple)
  simp only [reduceAdd, ← hs₃] at hL₄
  obtain ⟨hcopied, houtput⟩ := hc₄.final (by omega)
  rw [hrun, ok_bind, hcopied, houtput]
  by_cases hall : byteCount content offset len = len
  · rw [if_pos hall, if_pos (.inr hall)]
  · rw [if_neg hall, if_neg (by omega)]

end Copy

/-- A window in which every byte is there is a slice of the data. -/
theorem window_eq (hout : len ≤ output.length) {data : List UInt8}
    (hdata : offset + len ≤ data.length) (h : ∀ k < len, content (offset + k) = data[offset + k]?) :
    window content offset len output = (data.drop offset).take len ++ output.drop len := by
  apply ext_getElem
  · simp [window]
    omega
  intro k h₁ h₂
  by_cases hk : k < len
  · rw [getElem_append_left (by simp; omega)]
    simp [window, hk, h k hk, getElem?_eq_getElem (show offset + k < data.length by omega)]
  rw [getElem_append_right (by simp; omega)]
  simp only [window, getElem_mapIdx, if_neg hk, getElem_drop]
  congr 1
  simp
  omega

end Range

/-- The byte at offset `o` of the tree of the given height below `b`. A null data pointer
stands for zeros; below a null pointer to a pointer block there is no byte. -/
def treeByte (d : Disk) : ℕ → ℕ → ℕ → Option UInt8
  | 0, b, o => some (if b = 0 then 0 else d b o)
  | level + 1, b, o =>
    if b = 0 then none
    else treeByte d level ((d b).u32At (4 * (o / span level))) (o % span level)

def Inode.byteAt (d : Disk) (inode : Inode) (o : ℕ) : Option UInt8 :=
  if o < 12 * span 0 then treeByte d 0 (inode.direct.getD (o / span 0) 0) (o % span 0)
  else if o < 12 * span 0 + span 1 then treeByte d 1 (inode.blocks 12) (o - 12 * span 0)
  else if o < 12 * span 0 + span 1 + span 2 then
    treeByte d 2 (inode.blocks 13) (o - (12 * span 0 + span 1))
  else treeByte d 3 (inode.blocks 14) (o - (12 * span 0 + span 1 + span 2))

/-- The largest size the pointers of an inode can cover. -/
def sizeLimit : ℕ := 12 * span 0 + span 1 + span 2 + span 3

theorem span_pos (level : ℕ) : 0 < span level := mul_pos (by decide) (Nat.pow_pos (by decide))

theorem sizeLimit_le : sizeLimit + 2 ^ 40 ≤ u64Max := by
  decide +kernel

section Shows
theorem shows_of_treeByte
    (hdev : ∀ n ∈ treeOr (Forest.nodes (kids (diskOf fs dev))) level b, OnDevice fs dev n)
    (hbyte : ∀ j < span level, start + j < stop →
      content (start + j) = treeByte (diskOf fs dev) level b j) :
    Shows fs dev content stop level b start := by
  induction level generalizing b start with
  | zero =>
    intro _
    refine ⟨fun hb => hdev b ?_, fun j hj hstop => hbyte j hj hstop⟩
    rw [treeOr, if_neg hb]
    exact Forest.root_mem_nodes 0 b
  | succ level ih =>
    intro _
    by_cases hb : b = 0
    · rw [if_pos hb]
      intro j hj hstop
      rw [hbyte j hj hstop, treeByte, if_pos hb]
    rw [if_neg hb]
    rw [treeOr, if_neg hb] at hdev
    refine ⟨hdev b (Forest.root_mem_nodes _ b), fun k hk => ih (fun n hn => ?_) ?_⟩
    · have hentry : (diskOf fs dev b).u32At (4 * k) ≠ 0 := by
        intro h0
        simp [treeOr, h0] at hn
      rw [treeOr, if_neg hentry] at hn
      refine hdev n (mem_cons_of_mem _ (mem_flatMap.2 ⟨_, ?_, hn⟩))
      rw [kids, mem_filter, entriesIn, mem_map]
      exact ⟨⟨k, mem_range.2 hk, rfl⟩, by simpa using hentry⟩
    intro j hj hstop
    have hin : k * span level + j < span (level + 1) := by
      rw [span_succ]
      calc k * span level + j < (k + 1) * span level := by rw [succ_mul]; omega
        _ ≤ 256 * span level := mul_le_mul_right _ hk
    have hdiv : (k * span level + j) / span level = k := by
      rw [mul_comm, mul_add_div (span_pos level), div_eq_of_lt hj, add_zero]
    have hmod : (k * span level + j) % span level = j := by
      rw [mul_comm, mul_add_mod, mod_eq_of_lt hj]
    rw [add_assoc, hbyte _ hin (by omega), treeByte, if_neg hb, hdiv, hmod]

/-- What the range reader returns for a window of the file. -/
theorem readInodeRange_eq (hbs : fs.blockSize = 1024)
    (hdev : ∀ b ∈ refs (diskOf fs dev) inode, OnDevice fs dev b)
    (hlen : 0 < len) (hlen' : len = min output.length (inode.size - offset))
    (hcap : offset + len ≤ sizeLimit) :
    readInodeRange fs inode offset output dev = if offset + len ≤ 12 * span 0 + span 1 + span 2 ∨
          byteCount (inode.byteAt (diskOf fs dev)) offset len = len then
        .ok (byteCount (inode.byteAt (diskOf fs dev)) offset len,
          window (inode.byteAt (diskOf fs dev)) offset len output)
      else err .unsupported := by
  rw [refs_eq] at hdev
  simp only [mem_append] at hdev
  have hmax : offset + len + 2 ^ 40 ≤ u64Max := (Nat.add_le_add_right hcap _).trans sizeLimit_le
  refine readInodeRange_of_shows hbs hlen (by omega) hmax hlen' hcap ?_ ?_ ?_ ?_
  · intro k hk
    have hget : inode.direct.getD k 0 = inode.blocks ⟨k, by omega⟩ := by
      rw [getD_eq_getElem _ _ (by simpa [direct] using hk)]
      exact List.getElem_ofFn _
    refine shows_of_treeByte (fun n hn => hdev n ?_) fun j hj _ => ?_
    · have hne : inode.blocks ⟨k, by omega⟩ ≠ 0 := by
        intro h0
        simp [treeOr, h0] at hn
      rw [treeOr, if_neg hne, Forest.nodes, mem_singleton] at hn
      refine .inl (.inl (.inl (mem_filter.2 ⟨?_, by simpa [hn] using hne⟩)))
      rw [hn, ← hget, getD_eq_getElem _ _ (by simpa [direct] using hk)]
      exact getElem_mem _
    have hin : k * span 0 + j < 12 * span 0 := by
      calc k * span 0 + j < (k + 1) * span 0 := by rw [succ_mul]; omega
        _ ≤ 12 * span 0 := mul_le_mul_right _ hk
    rw [byteAt, if_pos hin, mul_comm, mul_add_div (span_pos 0),
      div_eq_of_lt hj, add_zero, mul_add_mod, mod_eq_of_lt hj, hget]
  · refine shows_of_treeByte (fun n hn => hdev n (by tauto)) fun j hj _ => ?_
    rw [byteAt, if_neg (by omega), if_pos (by omega), Nat.add_sub_cancel_left]
  · refine shows_of_treeByte (fun n hn => hdev n (by tauto)) fun j hj _ => ?_
    rw [byteAt, if_neg (by omega), if_neg (by omega), if_pos (by omega), Nat.add_sub_cancel_left]
  · refine shows_of_treeByte (fun n hn => hdev n (by tauto)) fun j hj _ => ?_
    rw [byteAt, if_neg (by omega), if_neg (by omega), if_neg (by omega), Nat.add_sub_cancel_left]

end Shows

end Ristux.Ext2
