import Ristux.Ext2.Check

-- The whole-file reader drops null pointers and joins the remaining blocks; the range reader goes
-- by logical offsets. The two are compared through `byteAt`.

namespace Ristux.Ext2
open Lib List Nat Forest

section Readers
variable {fs : Ext2Fs} {dev : Device} {inode : Inode}

theorem length_leaves_le (d : Disk) (level b : ℕ) :
    (leaves (kids d) level b).length ≤ 256 ^ level := by
  induction level generalizing b with
  | zero => simp [leaves]
  | succ level ih =>
    have hkids : (kids d b).length ≤ 256 := by
      refine (length_filter_le _ _).trans ?_
      simp [entriesIn]
    rw [leaves, length_flatMap]
    calc ((kids d b).map fun k => (leaves (kids d) level k).length).sum
        ≤ ((kids d b).map fun k => (leaves (kids d) level k).length).length • 256 ^ level :=
          sum_le_card_nsmul _ _ fun n hn => by
            obtain ⟨k, -, rfl⟩ := mem_map.1 hn
            exact ih k
      _ = (kids d b).length * 256 ^ level := by simp
      _ ≤ 256 ^ (level + 1) := by
          rw [pow_succ, mul_comm]
          exact mul_le_mul_left _ hkids

theorem length_blockBytes_le (d : Disk) (inode : Inode) :
    (blockBytes d (dataBlocks d inode)).length ≤ sizeLimit := by
  have htree : ∀ level b, (treeOr (leaves (kids d)) level b).length ≤ 256 ^ level := by
    intro level b
    rw [treeOr]
    split_ifs
    · simp
    · exact length_leaves_le d level b
  have hdirect : (inode.direct.filter (· ≠ 0)).length ≤ 12 := by
    refine (length_filter_le _ _).trans ?_
    simp [Inode.direct]
  have h₁ := htree 1 (inode.blocks 12)
  have h₂ := htree 2 (inode.blocks 13)
  have h₃ := htree 3 (inode.blocks 14)
  rw [blockBytes_length, dataBlocks_eq]
  simp only [length_append, sizeLimit, span, pow_zero]
  omega

/-- Whatever the range reader returns is the slice of the whole file at that offset. -/
def RangeIsSlice (fs : Ext2Fs) (inode : Inode) (dev : Device) : Prop :=
  ∀ data offset output n out, readInodeData fs inode dev = .ok data →
    readInodeRange fs inode offset output dev = .ok (n, out) →
    out.take n = (data.drop offset).take output.length

/-- The range reader reads every window of a file within the size limit. -/
def RangeReads (fs : Ext2Fs) (inode : Inode) (dev : Device) : Prop :=
  inode.size ≤ sizeLimit → ∀ offset output, ∃ r, readInodeRange fs inode offset output dev = .ok r

/-- If the file has as many bytes in blocks as its size says, these blocks in order hold
its bytes; and a file that reaches the triple-indirect block has no missing pointer block. -/
structure HolesHarmless (d : Disk) (inode : Inode) : Prop where
  joined : inode.size ≤ (blockBytes d (dataBlocks d inode)).length →
    ∀ o < inode.size, (blockBytes d (dataBlocks d inode))[o]? = inode.byteAt d o
  covered : inode.size ≤ sizeLimit → 12 * span 0 + span 1 + span 2 < inode.size →
    ∀ o < inode.size, (inode.byteAt d o).isSome

/-- The data block at offset `o` of a tree, or 0 if a pointer on the way to it is null. -/
def treeBlock (d : Disk) : ℕ → ℕ → ℕ → ℕ
  | 0, b, _ => b
  | level + 1, b, o =>
    if b = 0 then 0
    else treeBlock d level ((d b).u32At (4 * (o / span level))) (o % span level)

def Inode.blockAt (d : Disk) (inode : Inode) (o : ℕ) : ℕ :=
  if o < 12 * span 0 then treeBlock d 0 (inode.direct.getD (o / span 0) 0) (o % span 0)
  else if o < 12 * span 0 + span 1 then treeBlock d 1 (inode.blocks 12) (o - 12 * span 0)
  else if o < 12 * span 0 + span 1 + span 2 then
    treeBlock d 2 (inode.blocks 13) (o - (12 * span 0 + span 1))
  else treeBlock d 3 (inode.blocks 14) (o - (12 * span 0 + span 1 + span 2))

/-- The first `n` bytes of the blocks are those of `f`, and if `n` reaches the last of the `len`
bytes that there can be, there are that many. -/
structure Lays (d : Disk) (bs : List ℕ) (f : ℕ → Option UInt8) (len n : ℕ) : Prop where
  bytes : ∀ o < n, o < len → (blockBytes d bs)[o]? = f o
  isSome : ∀ o < n, o < len → (f o).isSome
  length : len ≤ n → (blockBytes d bs).length = len

section Lays
variable {d : Disk} {bs cs : List ℕ} {f g : ℕ → Option UInt8} {len len' n level : ℕ}

theorem Lays.congr (h : Lays d bs f len n) (hg : ∀ o < len, g o = f o) : Lays d bs g len n where
  bytes o hn hlen := (h.bytes o hn hlen).trans (hg o hlen).symm
  isSome o hn hlen := hg o hlen ▸ h.isSome o hn hlen
  length := h.length

theorem Lays.append (h : Lays d bs f len n) (h' : Lays d cs g len' (n - len)) :
    Lays d (bs ++ cs) (fun o => if o < len then f o else g (o - len)) (len + len') n where
  bytes o hn hlen := by
    rw [blockBytes_append]
    split_ifs with ho
    · have hsome := h.isSome o hn ho
      rw [← h.bytes o hn ho, isSome_getElem?] at hsome
      rw [getElem?_append_left hsome, h.bytes o hn ho]
    · have hfull := h.length (by omega)
      rw [getElem?_append_right (by omega), hfull, h'.bytes _ (by omega) (by omega)]
  isSome o hn hlen := by
    split_ifs with ho
    · exact h.isSome o hn ho
    · exact h'.isSome _ (by omega) (by omega)
  length hle := by
    rw [blockBytes_append, length_append, h.length (by omega), h'.length (by omega)]

/-- Trees of one height, one after another. -/
theorem lays_row (htree : ∀ b n, (∀ o < n, o < span level → treeBlock d level b o ≠ 0) →
      Lays d (treeOr (leaves (kids d)) level b) (treeByte d level b) (span level) n)
    (es : List ℕ) : ∀ n, (∀ o < n, o < es.length * span level →
      treeBlock d level (es.getD (o / span level) 0) (o % span level) ≠ 0) →
    Lays d ((es.filter (· ≠ 0)).flatMap (leaves (kids d) level))
      (fun o => treeByte d level (es.getD (o / span level) 0) (o % span level))
      (es.length * span level) n := by
  have hpos := span_pos level
  induction es with
  | nil => exact fun n _ => ⟨by simp, by simp, by simp [blockBytes]⟩
  | cons e es ih =>
    intro n hn
    have hnext : ∀ o, span level ≤ o → (e :: es).getD (o / span level) 0 =
        es.getD ((o - span level) / span level) 0 ∧
          (o - span level) % span level = o % span level := by
      intro o ho
      rw [Nat.div_eq_sub_div hpos ho, ← Nat.mod_eq_sub_mod ho]
      exact ⟨rfl, rfl⟩
    have hfirst := htree e n fun o ho hlt => by
      have := hn o ho (by rw [length_cons, succ_mul]; omega)
      rwa [Nat.div_eq_of_lt hlt, Nat.mod_eq_of_lt hlt] at this
    have hrest := ih (n - span level) fun o ho hlt => by
      have := hn (o + span level) (by omega) (by rw [length_cons, succ_mul]; omega)
      rwa [(hnext _ (by omega)).1, ← (hnext _ (by omega)).2, Nat.add_sub_cancel] at this
    have hcons : (filter (· ≠ 0) (e :: es)).flatMap (leaves (kids d) level) =
        treeOr (leaves (kids d)) level e ++
          (es.filter (· ≠ 0)).flatMap (leaves (kids d) level) := by
      unfold treeOr
      by_cases he : e = 0 <;> simp [he]
    rw [hcons, length_cons, succ_mul, add_comm]
    refine (hfirst.append hrest).congr fun o _ => ?_
    split_ifs with ho
    · rw [Nat.div_eq_of_lt ho, Nat.mod_eq_of_lt ho]
      rfl
    · rw [(hnext o (by omega)).1, (hnext o (by omega)).2]

theorem lays_zero (hlen : 0 < len) : Lays d bs f len 0 :=
  ⟨fun _ ho => absurd ho (Nat.not_lt_zero _), fun _ ho => absurd ho (Nat.not_lt_zero _),
    fun hle => absurd hle (Nat.not_le_of_gt hlen)⟩

/-- A tree without a null pointer before byte `n`. -/
theorem lays_tree (b : ℕ) : ∀ n, (∀ o < n, o < span level → treeBlock d level b o ≠ 0) →
    Lays d (treeOr (leaves (kids d)) level b) (treeByte d level b) (span level) n := by
  induction level generalizing b with
  | zero =>
    intro n hn
    rcases Nat.eq_zero_or_pos n with rfl | hpos
    · exact lays_zero (span_pos 0)
    have hb : b ≠ 0 := hn 0 hpos (span_pos 0)
    rw [treeOr, if_neg hb, leaves]
    refine ⟨fun o _ ho => ?_, fun o _ _ => rfl, fun _ => blockBytes_length d [b]⟩
    have ho' : o < 1024 := ho
    simp [blockBytes, treeByte, Buf.slice, hb, ho']
  | succ level ih =>
    intro n hn
    rcases Nat.eq_zero_or_pos n with rfl | hpos
    · exact lays_zero (span_pos _)
    have hb : b ≠ 0 := by
      rintro rfl
      exact hn 0 hpos (span_pos _) (if_pos rfl)
    have hlen : (entriesIn (d b)).length * span level = span (level + 1) := by
      rw [entriesIn, length_map, length_range, span_succ]
    have hentry : ∀ o < span (level + 1), (entriesIn (d b)).getD (o / span level) 0 =
        (d b).u32At (4 * (o / span level)) := by
      intro o ho
      have hk : o / span level < 256 := by
        rw [Nat.div_lt_iff_lt_mul (span_pos level), ← span_succ]
        exact ho
      simp [entriesIn, hk]
    rw [treeOr, if_neg hb, leaves, kids, ← hlen]
    refine (lays_row ih (entriesIn (d b)) n fun o ho hlt => ?_).congr fun o ho => ?_
    · have hblock := hn o ho (hlen ▸ hlt)
      rwa [treeBlock, if_neg hb, ← hentry o (hlen ▸ hlt)] at hblock
    · rw [treeByte, if_neg hb, hentry o (hlen ▸ ho)]

end Lays

/-- A file without a hole before its end. -/
theorem holesHarmless_of_blockAt (d : Disk) (h : ∀ o < inode.size, inode.blockAt d o ≠ 0) :
    HolesHarmless d inode := by
  have hlays : Lays d (dataBlocks d inode) (inode.byteAt d) sizeLimit inode.size := by
    have hlen : inode.direct.length * span 0 = 12 * span 0 := by simp [Inode.direct]
    have hdirect := lays_row lays_tree inode.direct inode.size fun o ho hlt => by
      have hblock := h o ho
      rwa [Inode.blockAt, if_pos (hlen ▸ hlt)] at hblock
    rw [hlen, show (leaves (kids d) 0) = fun b => [b] from rfl, flatMap_singleton'] at hdirect
    rw [dataBlocks_eq]
    refine (((hdirect.append (lays_tree _ _ fun o ho hlt => ?_)).append
      (lays_tree _ _ fun o ho hlt => ?_)).append (lays_tree _ _ fun o ho hlt => ?_)).congr
      fun o ho => ?_
    · have hblock := h (12 * span 0 + o) (by omega)
      rwa [Inode.blockAt, if_neg (by omega), if_pos (by omega), Nat.add_sub_cancel_left] at hblock
    · have hblock := h (12 * span 0 + span 1 + o) (by omega)
      rwa [Inode.blockAt, if_neg (by omega), if_neg (by omega), if_pos (by omega),
        Nat.add_sub_cancel_left] at hblock
    · have hblock := h (12 * span 0 + span 1 + span 2 + o) (by omega)
      rwa [Inode.blockAt, if_neg (by omega), if_neg (by omega), if_neg (by omega),
        Nat.add_sub_cancel_left] at hblock
    · rw [Inode.byteAt]
      split_ifs <;> first | rfl | omega
  refine ⟨fun hfull o ho => hlays.bytes o ho ?_, fun hcap _ o ho => hlays.isSome o ho (by omega)⟩
  exact ho.trans_le (hfull.trans (length_blockBytes_le d inode))

section
variable (hbs : fs.blockSize = 1024) (hdev : ∀ b ∈ refs (diskOf fs dev) inode, OnDevice fs dev b)
include hbs hdev

/-- A window of one byte. -/
theorem readInodeRange_one (ho : o < inode.size) (hcap : inode.size ≤ sizeLimit)
    (h : readInodeRange fs inode o [0] dev = .ok (n, out)) :
    out.take n = (inode.byteAt (diskOf fs dev) o).toList := by
  rw [readInodeRange_eq hbs hdev one_pos (by simp; omega) (by omega)] at h
  split_ifs at h with hok
  · injection h with h
    injection h with hn hout
    rw [← hn, ← hout]
    cases hb : inode.byteAt (diskOf fs dev) o <;> simp [byteCount, window, hb]

theorem HolesHarmless.rangeIsSlice (h : HolesHarmless (diskOf fs dev) inode) :
    RangeIsSlice fs inode dev := by
  intro data offset output n out hdata hrange
  rw [readInodeData_eq hbs hdev, dataOf] at hdata
  split_ifs at hdata with hbig hfull
  injection hdata with hdata
  have hcap := hfull.trans (length_blockBytes_le (diskOf fs dev) inode)
  obtain ⟨len, hlen'⟩ : ∃ len, len = min output.length (inode.size - offset) := ⟨_, rfl⟩
  have hdlen : data.length = inode.size := by simp [← hdata, hfull]
  by_cases hlen : len = 0
  · have hempty : (data.drop offset).take output.length = [] := by
      rw [← length_eq_zero_iff, length_take, length_drop]
      omega
    have hzero : readInodeRange fs inode offset output dev = .ok (0, output) := by
      rw [readInodeRange, if_pos]
      rw [← length_eq_zero_iff]
      omega
    rw [hzero] at hrange
    injection hrange with hrange
    injection hrange with hn _
    rw [hempty, ← hn, take_zero]
  have hat : ∀ k < len, inode.byteAt (diskOf fs dev) (offset + k) = data[offset + k]? := by
    intro k hk
    rw [← h.joined hfull (offset + k) (by omega), ← hdata, getElem?_take_of_lt (by omega)]
  have hall : byteCount (inode.byteAt (diskOf fs dev)) offset len = len := by
    refine byteCount_eq_iff.2 fun k hk => ?_
    rw [hat k hk, getElem?_eq_getElem (by omega)]
    rfl
  rw [readInodeRange_eq hbs hdev (by omega) hlen' (by omega), if_pos (.inr hall), hall] at hrange
  injection hrange with hrange
  injection hrange with hn hout
  rw [← hn, ← hout, window_eq (by omega) (by omega) hat, take_left' (by simp; omega), hlen',
    ← hdlen, ← length_drop, ← take_eq_take_min]

theorem HolesHarmless.rangeReads (h : HolesHarmless (diskOf fs dev) inode) :
    RangeReads fs inode dev := by
  intro hcap offset output
  obtain ⟨len, hlen'⟩ : ∃ len, len = min output.length (inode.size - offset) := ⟨_, rfl⟩
  by_cases hlen : len = 0
  · refine ⟨(0, output), ?_⟩
    rw [readInodeRange, if_pos]
    rw [← length_eq_zero_iff]
    omega
  · refine ⟨_, (readInodeRange_eq hbs hdev (by omega) hlen' (by omega)).trans (if_pos ?_)⟩
    refine (lt_or_ge _ _).symm.imp_right fun hlong => byteCount_eq_iff.2 fun k hk => ?_
    exact h.covered hcap (by omega) (offset + k) (by omega)

theorem holesHarmless_of_agree (hslice : RangeIsSlice fs inode dev)
    (hreads : RangeReads fs inode dev) : HolesHarmless (diskOf fs dev) inode where
  joined hfull o ho := by
    have hcap := hfull.trans (length_blockBytes_le (diskOf fs dev) inode)
    have hlimit : sizeLimit < 2 ^ 63 := by decide +kernel
    have hdata : readInodeData fs inode dev =
        .ok ((blockBytes (diskOf fs dev) (dataBlocks (diskOf fs dev) inode)).take inode.size) := by
      rw [readInodeData_eq hbs hdev, dataOf, if_neg (by omega), if_pos hfull]
    obtain ⟨⟨n, out⟩, hrange⟩ := hreads hcap o [0]
    have heq := hslice _ o [0] n out hdata hrange
    rw [readInodeRange_one hbs hdev ho hcap hrange, length_singleton, take_one,
      head?_drop, getElem?_take_of_lt ho] at heq
    have hinj := congrArg List.head? heq
    rwa [Option.head?_toList, Option.head?_toList, eq_comm] at hinj
  covered hcap hlong := by
    obtain ⟨⟨n, out⟩, hrange⟩ := hreads hcap 0 (List.replicate inode.size 0)
    have hfull : inode.size = min (replicate inode.size (0 : UInt8)).length (inode.size - 0) := by
      simp
    have heq := readInodeRange_eq hbs hdev (by omega) hfull (by omega)
    rw [heq] at hrange
    split_ifs at hrange with hok
    have hall := hok.resolve_left (by omega)
    intro o ho
    have := byteCount_eq_iff.1 hall o ho
    rwa [zero_add] at this

end

theorem blockSize_of_readInode (h : readInode fs ino dev = .ok inode) : fs.blockSize = 1024 := by
  by_contra hbs
  rw [readInode] at h
  cases hloc : inodeLocation fs ino with
  | error e => simp [hloc] at h
  | ok p => simp [hloc, readBlockSized, readBlockAt, hbs] at h

/-- The range reader agrees with the whole-file reader, and reads every file within the size
limit, exactly when the holes of the file do no harm. -/
theorem readers_agree_iff {ino : ℕ} (hino : readInode fs ino dev = .ok inode)
    (hdev : ∀ b ∈ refs (diskOf fs dev) inode, OnDevice fs dev b) :
    RangeIsSlice fs inode dev ∧ RangeReads fs inode dev ↔ HolesHarmless (diskOf fs dev) inode := by
  have hbs := blockSize_of_readInode hino
  refine ⟨fun ⟨hslice, hreads⟩ => holesHarmless_of_agree hbs hdev hslice hreads, fun h => ?_⟩
  exact ⟨h.rangeIsSlice hbs hdev, h.rangeReads hbs hdev⟩

end Readers

/-- An image whose inode 11 is a file of one byte with the given direct pointers; block 9
holds a 7. -/
def oneByteFile (blocks : List ℕ) : World :=
  tinyWorld [0xff, 0x02] [0xff, 0x07] (fun _ => tinyInode 0o100644 1 1 blocks)
    fun b => if b = 9 then Buf.ofList [7] else Buf.zero

def storedFile (blocks : List ℕ) : Inode :=
  match readInode tinyFs 11 (oneByteFile blocks).dev with
  | .ok inode => inode
  | .error _ => tinyInode 0 0 0 []

theorem readers_agree_dense : readInode tinyFs 11 (oneByteFile [9]).dev = .ok (storedFile [9]) ∧
      (∀ b ∈ refs (diskOf tinyFs (oneByteFile [9]).dev) (storedFile [9]),
        OnDevice tinyFs (oneByteFile [9]).dev b) ∧
      RangeIsSlice tinyFs (storedFile [9]) (oneByteFile [9]).dev ∧
      RangeReads tinyFs (storedFile [9]) (oneByteFile [9]).dev := by
  have hino : readInode tinyFs 11 (oneByteFile [9]).dev = .ok (storedFile [9]) := rfl
  have hdev : ∀ b ∈ refs (diskOf tinyFs (oneByteFile [9]).dev) (storedFile [9]),
      OnDevice tinyFs (oneByteFile [9]).dev b := by
    unfold OnDevice
    decide +kernel
  refine ⟨hino, hdev, (readers_agree_iff hino hdev).2 (holesHarmless_of_blockAt _ ?_)⟩
  decide +kernel

/-- Block 0 of the file is a hole and block 1 holds a 7: the whole-file reader finds the 7 at
offset 0, the range reader a zero. -/
theorem readers_disagree_at_hole : mountAt 0 (oneByteFile [0, 9]).dev = .ok tinyFs ∧
      readInode tinyFs 11 (oneByteFile [0, 9]).dev = .ok (storedFile [0, 9]) ∧
      (∀ b ∈ refs (diskOf tinyFs (oneByteFile [0, 9]).dev) (storedFile [0, 9]),
        OnDevice tinyFs (oneByteFile [0, 9]).dev b) ∧
      readInodeData tinyFs (storedFile [0, 9]) (oneByteFile [0, 9]).dev = .ok [7] ∧
      readInodeRange tinyFs (storedFile [0, 9]) 0 [1] (oneByteFile [0, 9]).dev = .ok (1, [0]) := by
  refine ⟨by decide +kernel, rfl, ?_, by decide +kernel, by decide +kernel⟩
  unfold OnDevice
  decide +kernel

end Ristux.Ext2
