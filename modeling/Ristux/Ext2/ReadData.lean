import Ristux.Lib.Forest
import Ristux.Ext2.Data
import Ristux.Ext2.Disk

-- The pointers of an inode span a forest of blocks.

namespace Ristux.Ext2
open Lib List Res Forest

def entriesIn (buf : Buf) : List ℕ := (List.range 256).map fun i => buf.u32At (4 * i)

/-- The blocks that pointer block `b` points to. -/
def kids (d : Disk) (b : ℕ) : List ℕ := (entriesIn (d b)).filter (· ≠ 0)

/-- The pointers an inode holds itself, each with the height of the tree below it. -/
def Inode.roots (inode : Inode) : List (ℕ × ℕ) :=
  (inode.direct.map (Prod.mk 0) ++
    [(1, inode.blocks 12), (2, inode.blocks 13), (3, inode.blocks 14)]).filter (·.2 ≠ 0)

/-- Every block the pointer tree of an inode refers to. -/
def refs (d : Disk) (inode : Inode) : List ℕ := allNodes (kids d) inode.roots

def dataBlocks (d : Disk) (inode : Inode) : List ℕ := allLeaves (kids d) inode.roots

def blockBytes (d : Disk) (blocks : List ℕ) : List UInt8 :=
  blocks.flatMap fun b => (d b).slice 0 1024

theorem blockBytes_append (d : Disk) (bs cs : List ℕ) :
    blockBytes d (bs ++ cs) = blockBytes d bs ++ blockBytes d cs := flatMap_append

theorem blockBytes_length (d : Disk) (bs : List ℕ) : (blockBytes d bs).length = 1024 * bs.length := by
  induction bs with
  | nil => rfl
  | cons b bs ih =>
    rw [blockBytes, flatMap_cons, length_append, Buf.slice_length, length_cons]
    rw [blockBytes] at ih
    omega

variable {d d' : Disk}

theorem blockBytes_congr (h : ∀ b ∈ bs, d' b = d b) : blockBytes d' bs = blockBytes d bs :=
  flatMap_congr fun b hb => by rw [h b hb]

/-- What `readInodeData` returns when every block of the file can be read. -/
def dataOf (d : Disk) (inode : Inode) : R (List UInt8) :=
  if 2 ^ 63 ≤ inode.size then err .outOfMemory
  else if inode.size ≤ (blockBytes d (dataBlocks d inode)).length then
    .ok ((blockBytes d (dataBlocks d inode)).take inode.size)
  else err .unsupported

theorem refs_congr (h : ∀ b ∈ allInner (kids d) inode.roots, d' b = d b) :
    dataBlocks d' inode = dataBlocks d inode ∧ refs d' inode = refs d inode :=
  forest_congr fun b hb => by rw [kids, kids, h b hb]

theorem dataOf_congr (h : ∀ b ∈ refs d inode, d' b = d b) : dataOf d' inode = dataOf d inode := by
  have hi : dataBlocks d' inode = dataBlocks d inode :=
    (refs_congr fun b hb => h b (mem_allNodes.2 (.inl hb))).1
  have hb : blockBytes d' (dataBlocks d inode) = blockBytes d (dataBlocks d inode) :=
    blockBytes_congr fun b hb => h b (mem_allNodes.2 (.inr hb))
  rw [dataOf, dataOf, hi, hb]

/-- A tree below a pointer that may be null. -/
def treeOr (f : ℕ → ℕ → List ℕ) (level b : ℕ) : List ℕ := if b = 0 then [] else f level b

theorem roots_flatMap (inode : Inode) (f : ℕ → ℕ → List ℕ) :
    inode.roots.flatMap (fun r => f r.1 r.2) = (inode.direct.filter (· ≠ 0)).flatMap (f 0) ++
      treeOr f 1 (inode.blocks 12) ++ treeOr f 2 (inode.blocks 13) ++
      treeOr f 3 (inode.blocks 14) := by
  have hdirect : ∀ bs : List ℕ, ((bs.map (Prod.mk 0)).filter (·.2 ≠ 0)).flatMap
      (fun r : ℕ × ℕ => f r.1 r.2) = (bs.filter (· ≠ 0)).flatMap (f 0) := by
    intro bs
    rw [filter_map, flatMap_map]
    rfl
  have htail : ([(1, inode.blocks 12), (2, inode.blocks 13), (3, inode.blocks 14)].filter
      (·.2 ≠ 0)).flatMap (fun r : ℕ × ℕ => f r.1 r.2) =
      treeOr f 1 (inode.blocks 12) ++ treeOr f 2 (inode.blocks 13) ++
        treeOr f 3 (inode.blocks 14) := by
    unfold treeOr
    by_cases h1 : inode.blocks 12 = 0 <;> by_cases h2 : inode.blocks 13 = 0 <;>
      by_cases h3 : inode.blocks 14 = 0 <;> simp [h1, h2, h3]
  rw [Inode.roots, filter_append, flatMap_append, hdirect, htail]
  simp only [append_assoc]

theorem dataBlocks_eq (d : Disk) (inode : Inode) : dataBlocks d inode =
    inode.direct.filter (· ≠ 0) ++ treeOr (leaves (kids d)) 1 (inode.blocks 12) ++
      treeOr (leaves (kids d)) 2 (inode.blocks 13) ++
      treeOr (leaves (kids d)) 3 (inode.blocks 14) := by
  rw [dataBlocks, allLeaves, roots_flatMap]
  congr 3
  exact flatMap_singleton' _

theorem refs_eq (d : Disk) (inode : Inode) : refs d inode =
    inode.direct.filter (· ≠ 0) ++ treeOr (nodes (kids d)) 1 (inode.blocks 12) ++
      treeOr (nodes (kids d)) 2 (inode.blocks 13) ++
      treeOr (nodes (kids d)) 3 (inode.blocks 14) := by
  rw [refs, allNodes, roots_flatMap]
  congr 3
  exact flatMap_singleton' _

/-- The pointer blocks of an inode. -/
theorem allInner_eq (d : Disk) (inode : Inode) : allInner (kids d) inode.roots =
    treeOr (inner (kids d)) 1 (inode.blocks 12) ++ (treeOr (inner (kids d)) 2 (inode.blocks 13) ++
        treeOr (inner (kids d)) 3 (inode.blocks 14)) := by
  rw [allInner, roots_flatMap]
  simp [Forest.inner]

theorem readAll_eq {read : ℕ → List UInt8 → R (List UInt8)}
    (h : ∀ b ∈ blocks, ∀ out, out.length ≤ total →
      read b out = .ok (out ++ (f b).take (total - out.length)))
    (hout : out.length ≤ total) : readAll total read blocks out =
    .ok (out ++ (blocks.flatMap f).take (total - out.length)) := by
  induction blocks generalizing out with
  | nil => simp [readAll]
  | cons b blocks ih =>
    rw [readAll]
    split_ifs with hfull
    · simp [hfull]
    rw [h b mem_cons_self out hout, ok_bind,
      ih (forall_mem_cons.1 h).2 (by simp; omega), flatMap_cons,
      take_append, append_assoc]
    simp only [length_append, length_take]
    congr 4
    omega

section Read
variable {fs : Ext2Fs} (hbs : fs.blockSize = 1024)
include hbs

theorem readIndirectEntries_of_onDevice (h : OnDevice fs dev b) :
    readIndirectEntries fs b dev = .ok (entriesIn (diskOf fs dev b)) := by
  rw [readIndirectEntries, readBlockSized_of_onDevice hbs hbs.ge h, ok_bind, hbs]
  rfl

theorem readIndirectBlocks_of_onDevice (h : OnDevice fs dev b) :
    readIndirectBlocks fs b dev = .ok (kids (diskOf fs dev) b) := by
  rw [readIndirectBlocks, readIndirectEntries_of_onDevice hbs h, ok_bind]
  rfl

theorem readIndirectBlocks_eq_ok (h : readIndirectBlocks fs b dev = .ok ks) :
    ks = kids (diskOf fs dev) b := by
  have hdev : OnDevice fs dev b := by
    rw [readIndirectBlocks, bind_eq_ok] at h
    obtain ⟨entries, hentries, -⟩ := h
    rw [readIndirectEntries, bind_eq_ok] at hentries
    obtain ⟨data, hdata, -⟩ := hentries
    exact (readBlockSized_eq_ok hbs hdata).1
  rw [readIndirectBlocks_of_onDevice hbs hdev] at h
  cases h
  rfl

theorem readDataBlock_eq (h : OnDevice fs dev b) (out : List UInt8) (hout : out.length ≤ total) :
    readDataBlock fs dev total b out =
      .ok (out ++ ((diskOf fs dev b).slice 0 1024).take (total - out.length)) := by
  rw [readDataBlock]
  split_ifs with hfull
  · simp [show total - out.length = 0 by omega]
  rw [readBlockSized_of_onDevice hbs hbs.ge h, ok_bind, hbs]
  rcases Nat.le_total (total - out.length) 1024 with hle | hle
  · rw [Nat.min_eq_left hle, Buf.slice_take _ _ hle]
  · rw [Nat.min_eq_right hle, take_of_length_le (by simpa using hle)]

theorem readTree_eq (level : ℕ) (h : ∀ n ∈ nodes (kids (diskOf fs dev)) level b,
      OnDevice fs dev n) (out : List UInt8) (hout : out.length ≤ total) :
    readTree fs dev total level b out = .ok
    (out ++ (blockBytes (diskOf fs dev) (leaves (kids (diskOf fs dev)) level b)).take
      (total - out.length)) := by
  induction level generalizing b out with
  | zero =>
    rw [readTree, readDataBlock_eq hbs (h b (by simp [nodes])) out hout]
    simp [blockBytes, leaves]
  | succ level ih =>
    rw [readTree, readIndirectBlocks_of_onDevice hbs (h b mem_cons_self), ok_bind,
      readAll_eq (f := fun k => blockBytes (diskOf fs dev)
        (leaves (kids (diskOf fs dev)) level k)) _ hout]
    · rw [leaves, blockBytes, flatMap_assoc]
      rfl
    · intro k hk out hout
      refine ih (fun n hn => h n ?_) out hout
      exact mem_cons_of_mem _ (mem_flatMap.2 ⟨k, hk, hn⟩)

theorem readIndirectPart_eq (level : ℕ)
    (h : ∀ n ∈ treeOr (nodes (kids (diskOf fs dev))) level b, OnDevice fs dev n)
    (out : List UInt8) (hout : out.length ≤ total) : readIndirectPart fs dev total level b out =
    .ok (out ++ (blockBytes (diskOf fs dev)
      (treeOr (leaves (kids (diskOf fs dev))) level b)).take (total - out.length)) := by
  rw [readIndirectPart, treeOr]
  by_cases hb : b = 0
  · simp [hb, blockBytes]
  split_ifs with hlt
  · rw [treeOr, if_neg hb] at h
    exact readTree_eq hbs level h out hout
  have : total - out.length = 0 := by
    omega
  simp [this]

theorem readInodeData_eq (h : ∀ b ∈ refs (diskOf fs dev) inode, OnDevice fs dev b) :
    readInodeData fs inode dev = dataOf (diskOf fs dev) inode := by
  have htake : ∀ (xs ys : List UInt8), xs.take inode.size ++
      ys.take (inode.size - (xs.take inode.size).length) = (xs ++ ys).take inode.size := by
    intro xs ys
    rw [take_append, length_take]
    congr 2
    omega
  have hle : ∀ xs : List UInt8, (xs.take inode.size).length ≤ inode.size := fun xs => by simp
  rw [refs_eq] at h
  simp only [mem_append] at h
  rw [readInodeData, tryReserve, dataOf]
  by_cases hbig : 2 ^ 63 ≤ inode.size
  · rw [if_neg (show ¬inode.size < 2 ^ 63 by omega), if_pos hbig]
    rfl
  rw [if_pos (show inode.size < 2 ^ 63 by omega), if_neg hbig, ok_bind]
  by_cases h0 : inode.size = 0
  · rw [if_pos h0, h0]
    simp
  rw [if_neg h0, readAll_eq
    (fun b hb out hout => readDataBlock_eq hbs (h b (by tauto)) out hout) (Nat.zero_le _),
    ok_bind, nil_append, length_nil, Nat.sub_zero]
  change (readIndirectPart fs dev inode.size 1 (inode.blocks 12)
    ((blockBytes (diskOf fs dev) _).take inode.size) >>= _) = _
  rw [readIndirectPart_eq hbs 1 (fun n hn => h n (by tauto)) _ (hle _), ok_bind, htake,
    ← blockBytes_append, readIndirectPart_eq hbs 2 (fun n hn => h n (by tauto)) _ (hle _),
    ok_bind, htake, ← blockBytes_append,
    readIndirectPart_eq hbs 3 (fun n hn => h n (by tauto)) _ (hle _), ok_bind, htake,
    ← blockBytes_append, ← dataBlocks_eq]
  by_cases hsize : inode.size ≤ (blockBytes (diskOf fs dev) (dataBlocks (diskOf fs dev) inode)).length
  · rw [if_pos hsize, if_pos (by simpa using hsize)]
  · rw [if_neg hsize, if_neg (by simpa using hsize)]

end Read

end Ristux.Ext2
