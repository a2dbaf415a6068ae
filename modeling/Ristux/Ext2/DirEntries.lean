import Ristux.Ext2.DirBlock
import Ristux.Ext2.StoreData

-- A directory is read as one file, so the records of its blocks form one chain. Names are
-- compared as strings by the lookup and as bytes by removal; both see the same entries.

namespace Ristux.Ext2
open Lib Proc List Option Res RawEntry

theorem asBytes_utf8Encode (s : Str) : (⟨⟨asBytes s⟩⟩ : ByteArray) = s.utf8Encode := by
  rw [List.utf8Encode, ByteArray.ext_iff, data_toByteArray]
  rfl

theorem fromUtf8_asBytes (s : Str) : fromUtf8 (asBytes s) = some s := by
  rw [fromUtf8, asBytes_utf8Encode, utf8Decode?_utf8Encode]
  rfl

theorem asBytes_of_fromUtf8 (h : fromUtf8 bytes = some s) : bytes = asBytes s := by
  obtain ⟨chars, hc, rfl⟩ := map_eq_some_iff.1 h
  have henc := @ByteArray.utf8Encode_get_utf8Decode? ⟨⟨bytes⟩⟩ (by rw [hc]; rfl)
  simp only [hc, get_some] at henc
  rw [← asBytes_utf8Encode] at henc
  exact (congrArg (fun b : ByteArray => b.data.toList) henc).symm

theorem asBytes_injective (h : asBytes s = asBytes t) : s = t := by
  have := fromUtf8_asBytes s
  rw [h, fromUtf8_asBytes] at this
  exact (Option.some.inj this).symm

/-- The entry as the lookup sees it; a name that is not UTF-8 is skipped. -/
def RawEntry.decode (e : RawEntry) : Option DirEntry :=
  (fromUtf8 e.name).map fun name => { ino := e.ino, name }

/-- Searching for a name finds the same entry in both views. -/
theorem find_decode (es : List RawEntry) (c : Str) :
    (es.filterMap decode).find? (fun e => e.name = c) =
      (es.find? fun e => e.name = asBytes c).map fun e => { ino := e.ino, name := c } := by
  induction es with
  | nil => rfl
  | cons e es ih =>
    rcases hd : fromUtf8 e.name with _ | name
    · have hne : e.name ≠ asBytes c := by
        intro hn
        rw [hn, fromUtf8_asBytes] at hd
        cases hd
      rw [filterMap_cons, decode, hd]
      simp only [map_none, find?_cons, hne, decide_false]
      exact ih
    rw [filterMap_cons, decode, hd]
    simp only [map_some, find?_cons]
    by_cases hc : name = c
    · have : e.name = asBytes c := hc ▸ asBytes_of_fromUtf8 hd
      simp [hc, this]
    have : e.name ≠ asBytes c := fun hn => hc
      (asBytes_injective ((asBytes_of_fromUtf8 hd).symm.trans hn))
    simp only [hc, this, decide_false]
    exact ih

variable {data : Buf}

theorem readDirRecords_eq (hc : Chain data o rs limit) (hlen : limit ≤ len)
    (hfuel : limit - o < 8 * fuel) : readDirRecords data len limit fuel o =
    .ok ((liveEntries rs).filterMap decode) := by
  induction rs generalizing o fuel with
  | nil =>
    obtain rfl : o = limit := hc
    cases fuel with
    | zero => rfl
    | succ fuel =>
      rw [readDirRecords, if_neg (by omega)]
      rfl
  | cons r rs ih =>
    obtain ⟨hr, hok, hrest⟩ := hc
    have hle := hrest.le
    have hlen' := hok.1
    obtain ⟨fuel, rfl⟩ : ∃ k, fuel = k + 1 := ⟨fuel - 1, by omega⟩
    obtain ⟨hino, hreclen, hnamelen, hslice⟩ := recordAt_fields hr
    rw [readDirRecords, if_pos (by omega)]
    simp only [leU16, leU32, check_of (show o + 4 ≤ len by omega),
      check_of (show o + 4 + 2 ≤ len by omega), ok_bind,
      check_of (show o + 6 < len by omega), hreclen, hnamelen, hino]
    rw [if_neg (by omega), ih hrest (by omega), liveEntries_cons, filterMap_append]
    by_cases hl : r.Live
    · have hpos := length_pos_iff.2 hl.2
      rw [if_pos ⟨hl.1, hpos, by omega⟩, check_of (show o + 8 + r.name.length ≤ len by omega),
        ok_bind, hslice, DirRecord.entries_of_live hl]
      rcases hd : fromUtf8 r.name with _ | name
      · simp [decode, hd]
      · simp [decode, hd]
    · rw [DirRecord.entries, if_neg hl, if_neg fun hc => hl ⟨hc.1, length_pos_iff.1 hc.2.1⟩]
      rfl

def parseRecords (data : Buf) : ℕ → ℕ → List DirRecord
  | 0, _ => []
  | fuel + 1, o =>
    if o < 1024 then recordAt data o :: parseRecords data fuel (o + (recordAt data o).len) else []

/-- The records of a directory block. -/
def records (data : Buf) : List DirRecord := parseRecords data 129 0

theorem parseRecords_eq (hc : Chain data o rs 1024) (hfuel : 1024 - o < 8 * fuel) :
    parseRecords data fuel o = rs := by
  induction rs generalizing o fuel with
  | nil =>
    obtain rfl : o = 1024 := hc
    cases fuel <;> rfl
  | cons r rs ih =>
    obtain ⟨hr, hok, hrest⟩ := hc
    have hle := hrest.le
    have hlen := hok.1
    obtain ⟨fuel, rfl⟩ : ∃ k, fuel = k + 1 := ⟨fuel - 1, by omega⟩
    rw [parseRecords, if_pos (by omega), hr, ih hrest (by omega)]

theorem records_eq (hc : Chain data 0 rs 1024) : records data = rs := parseRecords_eq hc (by omega)

def Tiled (data : Buf) : Prop := Chain data 0 (records data) 1024

instance (data : Buf) : Decidable (Tiled data) := inferInstanceAs (Decidable (Chain _ _ _ _))

/-- The entries of a directory, block after block. -/
def dirEntries (d : Disk) (inode : Inode) : List RawEntry :=
  (dataBlocks d inode).flatMap fun b => liveEntries (records (d b))

structure DirOk (d : Disk) (inode : Inode) : Prop where
  first : inode.blocks 0 ≠ 0
  size : inode.size = 1024 * (dataBlocks d inode).length
  small : inode.size < 2 ^ 63
  tiled : ∀ b ∈ dataBlocks d inode, Tiled (d b)
  dot : ((records (d (inode.blocks 0))).head?.map DirRecord.name) = some (asBytes dot)

theorem chain_blocks (h : ∀ b ∈ bs, Tiled (d b)) :
    Chain (Buf.ofList (blockBytes d bs)) 0 (bs.flatMap fun b => records (d b))
      (1024 * bs.length) := by
  induction bs with
  | nil => rfl
  | cons b bs ih =>
    rw [flatMap_cons, chain_append]
    have hlen : ((d b).slice 0 1024).length = 1024 := Buf.slice_length _ _ _
    refine ⟨1024, ?_, ?_⟩
    · refine (h b mem_cons_self).congr fun i _ hi => ?_
      rw [blockBytes, flatMap_cons, Buf.ofList, getD_append _ _ _ _ (by omega),
        Buf.slice_getD _ hi, Nat.zero_add]
    have hrest := ih (forall_mem_cons.1 h).2
    have hend : 1024 * (b :: bs).length = 1024 + (1024 * bs.length - 0) := by
      rw [length_cons]
      omega
    rw [hend]
    refine hrest.move fun i _ => ?_
    rw [blockBytes, flatMap_cons, Buf.ofList, getD_append_right _ _ _ _ (by omega),
      hlen, Nat.add_sub_cancel_left, Nat.zero_add]
    rfl

theorem readDirEntries_of_data
    (hok : DirOk d inode) (hread : readInodeData fs inode dev = dataOf d inode) :
    readDirEntries fs inode dev = .ok ((dirEntries d inode).filterMap decode) := by
  have hlen : (blockBytes d (dataBlocks d inode)).length = inode.size := by
    rw [blockBytes_length, hok.size]
  have hsmall := hok.small
  have hdata : dataOf d inode = .ok (blockBytes d (dataBlocks d inode)) := by
    rw [dataOf, if_neg (by omega), if_pos hlen.ge, take_of_length_le hlen.le]
  rw [readDirEntries, hread, hdata, ok_bind]
  rw [hlen, Nat.min_self]
  have hchain := chain_blocks hok.tiled
  rw [← hok.size] at hchain
  rw [readDirRecords_eq hchain le_rfl (by omega), dirEntries, liveEntries, flatMap_assoc]
  rfl

end Ristux.Ext2
