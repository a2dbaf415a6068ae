import Ristux.Ext2.Ownership
import Ristux.Ext2.Conservation

-- A directory block is a map from names to inodes and the inode tables are an array. Each call
-- changes one element of them inside a block it has read and leaves all other bytes alone.

namespace Ristux.Ext2
open Lib Proc List Option Res Function

/-- The inode a name stands for. -/
def inoOf (es : List RawEntry) (name : List UInt8) : Option ℕ :=
  (es.find? fun e => e.name = name).map RawEntry.ino

theorem inoOf_middle {A B : List RawEntry} {e : RawEntry} (hA : ∀ a ∈ A, a.name ≠ e.name) :
    inoOf (A ++ e :: B) = update (inoOf (A ++ B)) e.name (some e.ino) := by
  have hfind : A.find? (fun a => a.name = e.name) = none := find?_eq_none.2 (by simpa using hA)
  funext name
  rw [Function.update_apply]
  split_ifs with hname
  · subst hname
    simp [inoOf, find?_append, hfind]
  · simp [inoOf, find?_append, Ne.symm hname]

theorem inoOf_eq_none {es : List RawEntry} {name : List UInt8} (h : ∀ a ∈ es, a.name ≠ name) :
    inoOf es name = none := by
  rw [inoOf, find?_eq_none.2 (by simpa using h), map_none]

/-- A block is read whole, or the read fails as the device does. -/
theorem readBlockSized_cases (fs : Ext2Fs) (b : ℕ) (dev : Device) :
    (fs.blockSize = 1024 ∧ OnDevice fs dev b) ∨
      ∃ e, e ≠ .err .directoryFull ∧ readBlockSized fs b 1024 dev = .error e := by
  by_cases hbs : fs.blockSize = 1024
  · by_cases hdev : OnDevice fs dev b
    · exact .inl ⟨hbs, hdev⟩
    right
    rw [readBlockSized, readBlockAt, if_neg (by omega), hbs]
    simp only [show (1024 : ℕ) / 512 = 2 by norm_num, Res.check, readSectors]
    split_ifs with h0 h1 h2
    · exact absurd ⟨h2, of_decide_eq_true h0⟩ hdev
    all_goals exact ⟨_, by simp, rfl⟩
  · exact .inr ⟨.err .ioError, by simp, if_pos (.inr hbs)⟩

/-- The entries of a directory block. -/
def entriesOf (data : Buf) : List RawEntry := liveEntries (records data)

/-- No name is in the block twice. -/
def DistinctNames (data : Buf) : Prop := ((entriesOf data).map RawEntry.name).Nodup

instance (data : Buf) : Decidable (DistinctNames data) := inferInstanceAs (Decidable (Nodup _))

/-- The entry `e` is there once more, and a name that was not there stands for its inode. -/
def Adds (e : RawEntry) (before after : Buf) : Prop :=
  entriesOf after ~ e :: entriesOf before ∧
    (DistinctNames before → (∀ a ∈ entriesOf before, a.name ≠ e.name) →
      inoOf (entriesOf after) = update (inoOf (entriesOf before)) e.name (some e.ino))

/-- The entry `e` is there once less, and its name stands for no inode any more. -/
def Deletes (e : RawEntry) (before after : Buf) : Prop :=
  entriesOf before ~ e :: entriesOf after ∧
    (DistinctNames before → inoOf (entriesOf before) e.name = some e.ino ∧
      inoOf (entriesOf after) = update (inoOf (entriesOf before)) e.name none)

theorem adds_of_middle {A B : List RawEntry} {e : RawEntry} {before after : Buf}
    (hbefore : entriesOf before = A ++ B) (hafter : entriesOf after = A ++ e :: B) :
    Adds e before after := by
  rw [Adds, hbefore, hafter]
  refine ⟨perm_middle, fun _ hnew => inoOf_middle ?_⟩
  intro a ha
  exact hnew a (mem_append_left _ ha)

theorem deletes_of_middle {A B : List RawEntry} {e : RawEntry} {before after : Buf}
    (hbefore : entriesOf before = A ++ e :: B) (hafter : entriesOf after = A ++ B) :
    Deletes e before after := by
  rw [Deletes, DistinctNames, hbefore, hafter]
  refine ⟨perm_middle, fun hdistinct => ?_⟩
  have hnot : ∀ a ∈ A ++ B, a.name ≠ e.name := by
    have hnodup := (perm_middle.map RawEntry.name).nodup_iff.1 hdistinct
    rw [map_cons, nodup_cons] at hnodup
    intro a ha heq
    exact hnodup.1 (heq ▸ mem_map_of_mem ha)
  rw [inoOf_middle fun a ha => hnot a (mem_append_left _ ha)]
  refine ⟨update_self .., ?_⟩
  rw [update_idem, ← inoOf_eq_none hnot, update_eq_self]

/-- Only the block `b` is another one, and it is tiled as before. -/
def Edited (fs : Ext2Fs) (w : World) (b : ℕ) (p : Buf → Prop) (w' : World) : Prop :=
  ∃ data, w' = w.setBlock fs b data ∧ Tiled data ∧ p data

/-- Insertion and removal keep the tiling and change the entry of the one name, where the name
inserted must not be in the block before; a call that fails changes nothing, and the directory is
full only if no record has enough slack. -/
theorem dirBlock_edited {fs : Ext2Fs} {w : World} {parent : Inode} {name : Str} {ino : ℕ}
    (ht : Tiled (diskOf fs w.dev (parent.blocks 0))) (hino : ino ≠ 0 ∧ ino < 2 ^ 32)
    (fileType : ℕ) :
    (match insertDirEntry fs parent ino name fileType w with
      | (.ok (), w') => Edited fs w (parent.blocks 0)
          (Adds ⟨ino, asBytes name⟩ (diskOf fs w.dev (parent.blocks 0))) w'
      | (.error e, w') => w' = w ∧ (e = .err .directoryFull →
          ∀ r ∈ records (diskOf fs w.dev (parent.blocks 0)),
            r.len < r.actual + align4 (8 + (asBytes name).length))) ∧
      match removeDirEntry fs parent name w with
      | (.ok ino, w') => Edited fs w (parent.blocks 0)
          (Deletes ⟨ino, asBytes name⟩ (diskOf fs w.dev (parent.blocks 0))) w'
      | (.error _, w') => w' = w := by
  constructor
  · rw [insertDirEntry]
    split_ifs with hlen hzero
    · exact ⟨rfl, by simp⟩
    · exact ⟨rfl, by simp⟩
    rcases readBlockSized_cases fs (parent.blocks 0) w.dev with ⟨hbs, hdev⟩ | ⟨e, hne, hread⟩
    · rw [reading_bind_of_ok (readBlockSized_of_onDevice hbs le_rfl hdev), hbs]
      have hins := @insertRecord_eq ino _ 0 (1024 / 8 + 1) _ (asBytes name) (by omega) hino.2
        fileType ht (by omega)
      split at hins
      · next hin =>
        rw [hins]
        refine ⟨rfl, fun _ r hr => ?_⟩
        by_contra hslack
        exact insertIn_ne_none hr (by omega) hin
      · next rs hin =>
        obtain ⟨data, heq, hchain, -⟩ := hins
        obtain ⟨A, B, hold, hnew⟩ := insertIn_entries hino.1 (by tauto) hin
        have hrec := records_eq hchain
        rw [heq]
        change match writeBlockSized fs (parent.blocks 0) 1024 data w with
          | (.ok (), w') => _ | (.error _, w') => _
        rw [writeBlockSized_of_onDevice hbs _ le_rfl hdev]
        exact ⟨data, rfl, by rwa [Tiled, hrec], adds_of_middle hold (by rwa [entriesOf, hrec])⟩
    · rw [reading_bind_of_error hread]
      exact ⟨rfl, fun h => absurd h hne⟩
  · rw [removeDirEntry]
    split_ifs
    · rfl
    · rfl
    rcases readBlockSized_cases fs (parent.blocks 0) w.dev with ⟨hbs, hdev⟩ | ⟨e, -, hread⟩
    · rw [reading_bind_of_ok (readBlockSized_of_onDevice hbs le_rfl hdev), hbs]
      have hrem := @removeRecord_eq _ _ (asBytes name) ht
      split at hrem
      · rw [hrem]
        rfl
      · next ino rs hin =>
        obtain ⟨data, heq, hchain⟩ := hrem
        obtain ⟨A, B, hold, -, hnew⟩ := removeIn_entries hin
        have hrec := records_eq hchain
        rw [heq]
        change match (writeBlockSized fs (parent.blocks 0) 1024 data >>= fun _ => pure ino) w with
          | (.ok _, w') => _ | (.error _, w') => _
        rw [bind_of_ok (writeBlockSized_of_onDevice hbs _ le_rfl hdev)]
        exact ⟨data, rfl, by rwa [Tiled, hrec], deletes_of_middle hold (by rwa [entriesOf, hrec])⟩
    · rw [reading_bind_of_error hread]

theorem dirBlock_edited_danglingLink : Edited tinyFs danglingLink 7
      (Adds ⟨12, asBytes ['b']⟩ (diskOf tinyFs danglingLink.dev 7)) (insertDirEntry tinyFs
        ((storeAt tinyFs danglingLink).inode 2) 12 ['b'] ext2FtRegFile danglingLink).2 ∧
    Edited tinyFs danglingLink 7
      (Deletes ⟨11, asBytes ['a']⟩ (diskOf tinyFs danglingLink.dev 7))
        (removeDirEntry tinyFs ((storeAt tinyFs danglingLink).inode 2) ['a'] danglingLink).2 := by
  have hins : (insertDirEntry tinyFs ((storeAt tinyFs danglingLink).inode 2) 12 ['b'] ext2FtRegFile
      danglingLink).1 = .ok () := by decide +kernel
  have hrem : (removeDirEntry tinyFs ((storeAt tinyFs danglingLink).inode 2) ['a']
      danglingLink).1 = .ok 11 := by decide +kernel
  have hblock : ((storeAt tinyFs danglingLink).inode 2).blocks 0 = 7 := by decide +kernel
  have h (name : Str) := @dirBlock_edited tinyFs danglingLink
    ((storeAt tinyFs danglingLink).inode 2) name 12 (by decide +kernel) (by decide) ext2FtRegFile
  have hadds := (h ['b']).1
  have hdeletes := (h ['a']).2
  rw [eq_of_ok hins, hblock] at hadds
  rw [eq_of_ok hrem, hblock] at hdeletes
  exact ⟨hadds, hdeletes⟩

/-- A name that is in the block already is inserted a second time, and the map from names to inodes
stays as it is. `create_file` makes this call when the name is that of a dangling link. -/
theorem insert_keeps_binding : Tiled (diskOf tinyFs danglingLink.dev 7) ∧
    DistinctNames (diskOf tinyFs danglingLink.dev 7) ∧
    ((storeAt tinyFs danglingLink).inode 2).blocks 0 = 7 ∧
    (insertDirEntry tinyFs ((storeAt tinyFs danglingLink).inode 2) 12 ['a'] ext2FtRegFile
      danglingLink).1 = .ok () ∧
    inoOf (entriesOf (diskOf tinyFs (insertDirEntry tinyFs ((storeAt tinyFs danglingLink).inode 2)
      12 ['a'] ext2FtRegFile danglingLink).2.dev 7)) (asBytes ['a']) = some 11 ∧
    ¬inoOf (entriesOf (diskOf tinyFs (insertDirEntry tinyFs ((storeAt tinyFs danglingLink).inode 2)
      12 ['a'] ext2FtRegFile danglingLink).2.dev 7)) =
      update (inoOf (entriesOf (diskOf tinyFs danglingLink.dev 7))) (asBytes ['a']) (some 12) := by
  have hkept : inoOf (entriesOf (diskOf tinyFs (insertDirEntry tinyFs
      ((storeAt tinyFs danglingLink).inode 2) 12 ['a'] ext2FtRegFile danglingLink).2.dev 7))
      (asBytes ['a']) = some 11 := by decide +kernel
  refine ⟨by decide +kernel, by decide +kernel, by decide +kernel, by decide +kernel, hkept, ?_⟩
  intro h
  rw [h, update_self] at hkept
  cases hkept

/-- An inode without a record cannot be read, whatever the device holds. -/
theorem readInode_congr (h : ¬HasRecord fs ino) (dev dev' : Device) :
    readInode fs ino dev = readInode fs ino dev' := by
  rw [readInode, readInode, inodeLocation]
  split_ifs with hno
  · rfl
  dsimp only
  rw [getElem?_eq_none (by_contra fun hlt =>
    h ⟨(not_or.1 hno).imp_right le_of_not_gt, not_le.1 hlt⟩)]
  rfl

/-- The first byte of the record of an inode. -/
def recordStart (fs : Ext2Fs) (ino : ℕ) : ℕ :=
  512 * fs.startSector + 1024 * tableBlock fs ino + tableOffset fs ino

/-- On a mounted image the tables are an array of inodes. -/
theorem writeInode_array {v : Inode} (hmount : mountAt startSector dev = .ok fs)
    (hsize : fs.inodeSize ∈ [128, 256, 512, 1024])
    (hapart : ∀ i j x, i < fs.groups.length → j < fs.groups.length → x ∈ tableOf fs i →
      x ∈ tableOf fs j → i = j)
    (hdev : ∀ i < fs.groups.length, ∀ b ∈ tableOf fs i, OnDevice fs w.dev b)
    (hi : HasRecord fs i) (hfits : v.Fits) (hv : v.size < 2 ^ 32 ∨ v.isFile) :
    ∃ w', writeInode fs i v w = (.ok (), w') ∧ readInode fs i w'.dev = .ok v ∧
      (∀ j ≠ i, readInode fs j w'.dev = readInode fs j w.dev) ∧
      w'.dev.sectorCount = w.dev.sectorCount ∧
      ∀ s k, k < 512 →
        ¬(recordStart fs i ≤ 512 * s + k ∧ 512 * s + k < recordStart fs i + 128) →
        w'.dev.sector s k = w.dev.sector s k := by
  have hpos : 0 < fs.groups.length := Nat.zero_lt_of_lt hi.2
  have hpow : ∀ n ∈ [128, 256, 512, 1024], n ∣ 1024 ∧ 128 ≤ n := by decide
  obtain ⟨-, hper, hbs⟩ := mountAt_groups hmount
  have ht : Tables fs := ⟨hper, hpow _ hsize, hapart⟩
  have hon : ∀ {j}, HasRecord fs j → OnDevice fs w.dev (tableBlock fs j) := fun hj =>
    hdev _ hj.2 _ (ht.tableBlock_range _)
  obtain ⟨raw, hraw, heq⟩ := writeInode_of_onDevice ht (hbs hpos) hi (hon hi) hfits
  rw [hv.elim Inode.stored_of_lt Inode.stored_of_isFile] at hraw
  have hread : ∀ j, HasRecord fs j → readInode fs j (w.setBlock fs (tableBlock fs i)
      (putInode fs i raw (diskOf fs w.dev) (tableBlock fs i))).dev =
        .ok (if j = i then v else inodeAt fs (diskOf fs w.dev) j) := by
    intro j hj
    rw [readInode_of_onDevice ht (hbs hpos) hj (by exact hon hj), diskOf_setBlock, ← hraw,
      ← inodeAt_putInode ht hi hj, putInode, update_self]
  refine ⟨_, heq, ?_, fun j hj => ?_, rfl, fun s k hk hout => ?_⟩
  · rw [hread i hi, if_pos rfl]
  · by_cases hrec : HasRecord fs j
    · rw [hread j hrec, if_neg hj, readInode_of_onDevice ht (hbs hpos) hrec (hon hrec)]
    · exact readInode_congr hrec _ _
  · have hle := ht.tableOffset_le i
    unfold recordStart at hout
    simp only [World.setBlock, putInode, update_self, Function.update_apply]
    split_ifs with hlast hfirst
    · subst hlast
      dsimp only
      rw [if_neg (by omega)]
      simp [diskOf]
    · subst hfirst
      dsimp only
      rw [if_neg (by omega)]
      simp [diskOf, hk]
    · rfl

theorem writeInode_array_splitRoot : ∃ w',
    writeInode tinyFs 11 (tinyInode 0o100600 1 7 [9]) splitRoot = (.ok (), w') ∧
      readInode tinyFs 11 w'.dev = .ok (tinyInode 0o100600 1 7 [9]) ∧
      ∀ j ≠ 11, readInode tinyFs j w'.dev = readInode tinyFs j splitRoot.dev := by
  obtain ⟨w', hwrite, hread, hother, -⟩ := writeInode_array (i := 11) (w := splitRoot)
    (v := tinyInode 0o100600 1 7 [9]) consistent_splitRoot.mounted (by decide)
    (fun i j _ hi hj _ _ => (Nat.lt_one_iff.1 hi).trans (Nat.lt_one_iff.1 hj).symm)
    (fun i hi b hb => consistent_splitRoot.onDevice b
      (by rw [Nat.lt_one_iff.1 hi] at hb; revert b; decide))
    ⟨by decide, by decide⟩
    ⟨by decide, by decide, by decide, by decide, by decide, by decide, by decide, by decide,
      by decide⟩ (.inl (by decide))
  exact ⟨w', hwrite, hread, hother⟩

end Ristux.Ext2
