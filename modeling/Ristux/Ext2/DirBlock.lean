import Ristux.Ext2.Dir

-- A sound directory block is tiled by records. Inserting a name splits a record with enough slack
-- in two, removing one merges its record into the one before it.

namespace Ristux.Ext2
open Lib List Option Res Nat Buf

@[ext]
structure DirRecord where
  ino : ℕ
  len : ℕ
  name : List UInt8
  deriving DecidableEq, Repr

/-- A name in a directory, as bytes, and the inode it stands for. -/
@[ext]
structure RawEntry where
  ino : ℕ
  name : List UInt8
  deriving DecidableEq, Repr

namespace DirRecord

def actual (r : DirRecord) : ℕ := align4 (8 + r.name.length)

def Live (r : DirRecord) : Prop := r.ino ≠ 0 ∧ r.name ≠ []

instance (r : DirRecord) : Decidable r.Live := inferInstanceAs (Decidable (_ ∧ _))

/-- The entry a record holds, if it is in use. -/
def entries (r : DirRecord) : List RawEntry := if r.Live then [⟨r.ino, r.name⟩] else []

def Ok (r : DirRecord) : Prop := 8 + r.name.length ≤ r.len ∧ r.len % 4 = 0

instance (r : DirRecord) : Decidable r.Ok := inferInstanceAs (Decidable (_ ∧ _))

end DirRecord

def recordAt (data : Buf) (o : ℕ) : DirRecord where
  ino := data.u32At o
  len := data.u16At (o + 4)
  name := data.slice (o + 8) (data (o + 6)).toNat

/-- `data` holds the records `rs` one after another from offset `o` to offset `e`. -/
def Chain (data : Buf) : ℕ → List DirRecord → ℕ → Prop
  | o, [], e => o = e
  | o, r :: rs, e => recordAt data o = r ∧ r.Ok ∧ Chain data (o + r.len) rs e

instance decidableChain (data : Buf) : ∀ o rs e, Decidable (Chain data o rs e)
  | o, [], e => inferInstanceAs (Decidable (o = e))
  | o, r :: rs, e =>
    have := decidableChain data (o + r.len) rs e
    inferInstanceAs (Decidable (_ ∧ _ ∧ _))

/-- The names that are in use. -/
def liveEntries (rs : List DirRecord) : List RawEntry := rs.flatMap DirRecord.entries

/-- Split the first record with enough slack. -/
def insertIn (ino : ℕ) (name : List UInt8) : List DirRecord → Option (List DirRecord)
  | [] => none
  | r :: rs =>
    if r.actual + align4 (8 + name.length) ≤ r.len then
      some ({ r with len := r.actual } :: ⟨ino, r.len - r.actual, name⟩ :: rs)
    else (insertIn ino name rs).map (r :: ·)

/-- Merge the first record after `prev` that holds `name` into its predecessor. -/
def removeNext (name : List UInt8) (prev : DirRecord) :
    List DirRecord → Option (ℕ × List DirRecord)
  | [] => none
  | r :: rs =>
    if r.Live ∧ r.name = name then some (r.ino, { prev with len := prev.len + r.len } :: rs)
    else (removeNext name r rs).map fun p => (p.1, prev :: p.2)

def removeIn (name : List UInt8) : List DirRecord → Option (ℕ × List DirRecord)
  | [] => none
  | r :: rs =>
    if r.Live ∧ r.name = name then some (r.ino, { r with ino := 0 } :: rs)
    else removeNext name r rs

theorem liveEntries_cons (r : DirRecord) (rs : List DirRecord) :
    liveEntries (r :: rs) = r.entries ++ liveEntries rs := rfl

variable {r : DirRecord}

theorem DirRecord.entries_of_live (h : r.Live) : r.entries = [⟨r.ino, r.name⟩] :=
  if_pos h

variable {name : List UInt8} {recLen fileType i actual : ℕ}

theorem DirRecord.mem_entries : e ∈ r.entries ↔ r.Live ∧ e = ⟨r.ino, r.name⟩ := by
  unfold DirRecord.entries
  split_ifs with h <;> simp [h]

theorem mem_liveEntries : e ∈ liveEntries rs ↔ ∃ r ∈ rs, r.Live ∧ e = ⟨r.ino, r.name⟩ := by
  simp [liveEntries, DirRecord.mem_entries]

theorem DirRecord.entries_ne (h : ¬(r.Live ∧ r.name = name)) : ∀ e ∈ r.entries, e.name ≠ name := by
  intro e he hn
  obtain ⟨hlive, rfl⟩ := mem_entries.1 he
  exact h ⟨hlive, hn⟩

variable {ino : ℕ}

/-- What insertion does to the entries: the new one comes after some of the old ones. -/
theorem insertIn_entries (hino : ino ≠ 0) (hname : name ≠ []) (h : insertIn ino name rs = some rs') :
    ∃ A B, liveEntries rs = A ++ B ∧ liveEntries rs' = A ++ ⟨ino, name⟩ :: B := by
  induction rs generalizing rs' with
  | nil => cases h
  | cons r rs ih =>
    rw [insertIn] at h
    split_ifs at h with hs
    · cases h
      have hlive : DirRecord.Live ⟨ino, r.len - r.actual, name⟩ := ⟨hino, hname⟩
      refine ⟨r.entries, liveEntries rs, liveEntries_cons r rs, ?_⟩
      rw [liveEntries_cons, liveEntries_cons, DirRecord.entries_of_live hlive]
      rfl
    obtain ⟨qs, hqs, rfl⟩ := map_eq_some_iff.1 h
    obtain ⟨A, B, hold, hnew⟩ := ih hqs
    refine ⟨r.entries ++ A, B, ?_, ?_⟩
    · rw [liveEntries_cons, hold, append_assoc]
    · rw [liveEntries_cons, hnew, append_assoc]

variable {prev : DirRecord}

theorem removeNext_entries (h : removeNext name prev rs = some (ino, rs')) : ∃ A B, liveEntries rs =
    A ++ ⟨ino, name⟩ :: B ∧ (∀ e ∈ A, e.name ≠ name) ∧ liveEntries rs' =
    prev.entries ++ (A ++ B) := by
  induction rs generalizing prev rs' with
  | nil => cases h
  | cons r rs ih =>
    rw [removeNext] at h
    split_ifs at h with hr
    · cases h
      obtain ⟨hlive, rfl⟩ := hr
      refine ⟨[], liveEntries rs, ?_, by simp, rfl⟩
      rw [liveEntries_cons, DirRecord.entries_of_live hlive]
      rfl
    obtain ⟨⟨i, qs⟩, hqs, hp⟩ := map_eq_some_iff.1 h
    cases hp
    obtain ⟨A, B, hold, hA, hnew⟩ := ih hqs
    refine ⟨r.entries ++ A, B, ?_, fun e he => ?_, ?_⟩
    · rw [liveEntries_cons, hold, append_assoc]
    · exact (mem_append.1 he).elim (DirRecord.entries_ne hr e) (hA e)
    · rw [liveEntries_cons, hnew, append_assoc]

/-- What removal does to the entries: the first one with the name goes. -/
theorem removeIn_entries (h : removeIn name rs = some (ino, rs')) :
    ∃ A B, liveEntries rs = A ++ ⟨ino, name⟩ :: B ∧
    (∀ e ∈ A, e.name ≠ name) ∧ liveEntries rs' = A ++ B := by
  cases rs with
  | nil => cases h
  | cons r rs =>
    rw [removeIn] at h
    split_ifs at h with hr
    · cases h
      obtain ⟨hlive, rfl⟩ := hr
      refine ⟨[], liveEntries rs, ?_, by simp, ?_⟩
      · rw [liveEntries_cons, DirRecord.entries_of_live hlive]
        rfl
      · rw [liveEntries_cons, DirRecord.entries, if_neg fun hl => hl.1 rfl]
    obtain ⟨A, B, hold, hA, hnew⟩ := removeNext_entries h
    refine ⟨r.entries ++ A, B, ?_, fun e he => ?_, ?_⟩
    · rw [liveEntries_cons, hold, append_assoc]
    · exact (mem_append.1 he).elim (DirRecord.entries_ne hr e) (hA e)
    · rw [hnew, append_assoc]

theorem removeNext_none (h : removeNext name prev rs = none) :
    ∀ e ∈ liveEntries rs, e.name ≠ name := by
  induction rs generalizing prev with
  | nil => exact fun e he => absurd he not_mem_nil
  | cons r rs ih =>
    rw [removeNext] at h
    split_ifs at h with hr
    rw [map_eq_none_iff] at h
    exact fun e he => (mem_append.1 he).elim (DirRecord.entries_ne hr e) (ih h e)

theorem removeIn_none (h : removeIn name rs = none) : ∀ e ∈ liveEntries rs, e.name ≠ name := by
  cases rs with
  | nil => exact fun e he => absurd he not_mem_nil
  | cons r rs =>
    rw [removeIn] at h
    split_ifs at h with hr
    exact fun e he => (mem_append.1 he).elim (DirRecord.entries_ne hr e) (removeNext_none h e)

theorem align4_le (h : a ≤ n) (hn : n % 4 = 0) : align4 a ≤ n := by
  unfold align4
  omega

theorem DirRecord.Ok.actual_le (h : r.Ok) : r.actual ≤ r.len := align4_le h.1 h.2

theorem insertIn_ne_none (hr : r ∈ rs) (hslack : r.actual + align4 (8 + name.length) ≤ r.len) :
    insertIn ino name rs ≠ none := by
  induction rs with
  | nil => cases hr
  | cons q rs ih =>
    rw [insertIn]
    split_ifs with hq
    · simp
    rcases mem_cons.1 hr with rfl | hr
    · exact absurd hslack hq
    · simpa using ih hr

/-- The room that a removed name leaves is enough for a name of the same length. -/
theorem removeNext_slack (hok : ∀ r ∈ prev :: rs, r.Ok)
    (h : removeNext name prev rs = some (ino, rs')) : ∃ r ∈ rs',
    r.actual + align4 (8 + name.length) ≤ r.len := by
  induction rs generalizing prev rs' with
  | nil => cases h
  | cons r rs ih =>
    rw [removeNext] at h
    split_ifs at h with hr
    · cases h
      obtain ⟨-, rfl⟩ := hr
      refine ⟨_, mem_cons_self, ?_⟩
      have hp := (hok prev mem_cons_self).actual_le
      have hr := (hok r (by simp)).actual_le
      unfold DirRecord.actual at hp hr ⊢
      dsimp only
      omega
    · obtain ⟨⟨i, qs⟩, hqs, hp⟩ := map_eq_some_iff.1 h
      cases hp
      obtain ⟨q, hq, hslack⟩ := ih (forall_mem_cons.1 hok).2 hqs
      exact ⟨q, mem_cons_of_mem _ hq, hslack⟩

variable {p : ℕ}

section Chain
section
variable (h : Chain data o rs e)
include h

theorem Chain.le : o ≤ e := by
  induction rs generalizing o with
  | nil => exact h.le
  | cons r rs ih => exact (Nat.le_add_right _ _).trans (ih h.2.2)

omit h in
theorem chain_append : Chain data o (rs ++ qs) e ↔ ∃ m, Chain data o rs m ∧ Chain data m qs e := by
  induction rs generalizing o with
  | nil => simp [Chain]
  | cons r rs ih =>
    simp only [cons_append, Chain, ih]
    constructor
    · rintro ⟨hr, hok, m, hm, hq⟩
      exact ⟨m, ⟨hr, hok, hm⟩, hq⟩
    · rintro ⟨m, ⟨hr, hok, hm⟩, hq⟩
      exact ⟨hr, hok, m, hm, hq⟩

theorem Chain.ok : ∀ r ∈ rs, r.Ok := by
  induction rs generalizing o with
  | nil => simp
  | cons r rs ih =>
    intro q hq
    rcases mem_cons.1 hq with rfl | hq
    · exact h.2.1
    · exact ih h.2.2 q hq

theorem Chain.name_lt : ∀ r ∈ rs, r.name.length < 256 := by
  induction rs generalizing o with
  | nil => simp
  | cons r rs ih =>
    intro q hq
    rcases mem_cons.1 hq with rfl | hq
    · rw [← h.1]
      simpa [recordAt] using (data (o + 6)).toNat_lt
    · exact ih h.2.2 q hq

omit h in
theorem recordAt_fields (hr : recordAt data o = r) :
    data.u32At o = r.ino ∧ data.u16At (o + 4) = r.len ∧ (data (o + 6)).toNat = r.name.length ∧
      data.slice (o + 8) r.name.length = r.name := by
  subst hr
  have hlen : (data (o + 6)).toNat = (recordAt data o).name.length := by simp [recordAt]
  refine ⟨rfl, rfl, hlen, ?_⟩
  rw [← hlen]
  rfl

omit h in
/-- A record depends on its header and its name only. -/
theorem recordAt_congr (h : recordAt data o = r)
    (hsame : ∀ i < 8 + r.name.length, data' (p + i) = data (o + i)) : recordAt data' p = r := by
  subst h
  have hlen : (recordAt data o).name.length = (data (o + 6)).toNat := by simp [recordAt]
  have hb : ∀ i < 8, data' (p + i) = data (o + i) := fun i hi => hsame i (by omega)
  have h6 : data' (p + 6) = data (o + 6) := hb 6 (by omega)
  ext1
  · have h0 : data' p = data o := hb 0 (by omega)
    simp only [recordAt, u32At, h0, hb 1 (by omega), hb 2 (by omega), hb 3 (by omega)]
  · have h5 : data' (p + 4 + 1) = data (o + 4 + 1) := hb 5 (by omega)
    simp only [recordAt, u16At, hb 4 (by omega), h5]
  simp only [recordAt, h6, slice]
  refine map_congr_left fun i hi => ?_
  rw [Nat.add_assoc, Nat.add_assoc]
  exact hsame (8 + i) (by have := mem_range.1 hi; omega)

/-- Moving a chain, or changing bytes outside it, does not change its records. -/
theorem Chain.move (hsame : ∀ i < e - o, data' (p + i) = data (o + i)) :
    Chain data' p rs (p + (e - o)) := by
  induction rs generalizing o p with
  | nil =>
    rw [Chain] at h ⊢
    omega
  | cons r rs ih =>
    obtain ⟨hr, hok, hrest⟩ := h
    have hle := hrest.le
    have hlen := hok.1
    refine ⟨recordAt_congr hr fun i hi => hsame i (by omega), hok, ?_⟩
    have := ih (p := p + r.len) hrest fun i hi => by
      rw [Nat.add_assoc, Nat.add_assoc]
      exact hsame (r.len + i) (by omega)
    rwa [show p + r.len + (e - (o + r.len)) = p + (e - o) by omega] at this

theorem Chain.congr (hsame : ∀ i, o ≤ i → i < e → data' i = data i) : Chain data' o rs e := by
  have hle := h.le
  have := h.move fun i hi => hsame (o + i) (by omega) (by omega)
  rwa [show o + (e - o) = e by omega] at this

end

end Chain

section Code
variable {data : Buf} {o fuel : ℕ} {rs : List DirRecord} {name : List UInt8}

theorem recordAt_setLen (hr : recordAt data p = r) (hlen : len < 65536) :
    recordAt (data.setU16 (p + 4) len) p = { r with len } := by
  have h6 : (data.setU16 (p + 4) len) (p + 6) = data (p + 6) := setU16_apply_out (by omega)
  subst hr
  ext1
  · exact u32At_setU16_ne (by omega)
  · exact (u16At_setU16 _ _ _).trans (mod_eq_of_lt hlen)
  dsimp only [recordAt]
  rw [h6]
  exact slice_congr fun i _ _ => setU16_apply_out (by omega)

/-- A record written at `o`. -/
def putRecord (data : Buf) (o ino recLen : ℕ) (name : List UInt8) (fileType : ℕ) : Buf :=
  let data := data.setU32 o ino
  let data := data.setU16 (o + 4) recLen
  let data := data.setByte (o + 6) (UInt8.ofNat name.length)
  let data := data.setByte (o + 7) (UInt8.ofNat fileType)
  data.blit (o + 8) name

theorem putRecord_other (hi : i < o ∨ o + 8 + name.length ≤ i) :
    putRecord data o ino recLen name fileType i = data i := by
  dsimp only [putRecord]
  rw [blit_apply_out (by omega), setByte_apply_out (by omega),
    setByte_apply_out (by omega), setU16_apply_out (by omega),
    setU32_apply_out (by omega)]

theorem recordAt_putRecord (hino : ino < 2 ^ 32) (hname : name.length ≤ 255) (hlen : recLen < 65536) :
    recordAt (putRecord data o ino recLen name fileType) o = ⟨ino, recLen, name⟩ := by
  have h6 : putRecord data o ino recLen name fileType (o + 6) = UInt8.ofNat name.length := by
    dsimp only [putRecord]
    rw [blit_apply_out (by omega), setByte_apply_out (by omega), setByte_same]
  ext1
  · dsimp only [recordAt]
    rw [u32At_congr (c := data.setU32 o ino), u32At_setU32]
    · exact mod_eq_of_lt hino
    intro i h1 h2
    dsimp only [putRecord]
    rw [blit_apply_out (by omega), setByte_apply_out (by omega),
      setByte_apply_out (by omega), setU16_apply_out (by omega)]
  · dsimp only [recordAt]
    rw [u16At_congr (c := (data.setU32 o ino).setU16 (o + 4) recLen), u16At_setU16]
    · exact mod_eq_of_lt hlen
    intro i h1 h2
    dsimp only [putRecord]
    rw [blit_apply_out (by omega), setByte_apply_out (by omega), setByte_apply_out (by omega)]
  · dsimp only [recordAt]
    rw [h6, UInt8.toNat_ofNat', mod_eq_of_lt (by omega)]
    exact slice_blit _ _ _

/-- The bytes `insert_dir_entry` writes when it splits the record at `o`. -/
def splitRecord (data : Buf) (o actual recLen ino : ℕ) (name : List UInt8) (fileType : ℕ) : Buf :=
  putRecord (data.setU16 (o + 4) actual) (o + actual) ino (recLen - actual) name fileType

theorem splitRecord_other (h8 : 8 ≤ actual)
    (hi : i < o + 4 ∨ (o + 6 ≤ i ∧ i < o + actual) ∨ o + actual + 8 + name.length ≤ i) :
    splitRecord data o actual recLen ino name fileType i = data i := by
  rw [splitRecord, putRecord_other (by omega), setU16_apply_out (by omega)]

theorem recordAt_splitRecord_old (hact : actual < 65536) (hr : recordAt data o = r)
    (h8 : 8 + r.name.length ≤ actual) :
    recordAt (splitRecord data o actual recLen ino name fileType) o = { r with len := actual } := by
  refine recordAt_congr (recordAt_setLen hr hact) fun i hi => ?_
  dsimp only at hi
  rw [splitRecord, putRecord_other (by omega)]

/-- The block of an empty directory. -/
def dotsBlock (selfIno parentIno : ℕ) : Buf :=
  putRecord (putRecord zero 0 selfIno 12 (asBytes dot) ext2FtDir) 12 parentIno 1012
    (asBytes dotDot) ext2FtDir

theorem chain_dotsBlock (hself : selfIno < 2 ^ 32)
    (hparent : parentIno < 2 ^ 32) : Chain (dotsBlock selfIno parentIno) 0
      [⟨selfIno, 12, asBytes dot⟩, ⟨parentIno, 1012, asBytes dotDot⟩] 1024 := by
  have hdot : recordAt (putRecord zero 0 selfIno 12 (asBytes dot) ext2FtDir) 0 =
      ⟨selfIno, 12, asBytes dot⟩ := recordAt_putRecord hself (by decide) (by decide)
  have hok : DirRecord.Ok ⟨selfIno, 12, asBytes dot⟩ :=
    ⟨show 8 + (asBytes dot).length ≤ 12 by decide, show 12 % 4 = 0 by decide⟩
  have hok' : DirRecord.Ok ⟨parentIno, 1012, asBytes dotDot⟩ :=
    ⟨show 8 + (asBytes dotDot).length ≤ 1012 by decide, show 1012 % 4 = 0 by decide⟩
  refine ⟨recordAt_congr hdot fun i hi => ?_, hok,
    recordAt_putRecord hparent (by decide) (by decide), hok', rfl⟩
  change i < 9 at hi
  exact putRecord_other (by omega)

theorem insertRecord_eq (hname : name.length ≤ 255) (hino : ino < 2 ^ 32)
    (fileType : ℕ) (hc : Chain data o rs 1024) (hfuel : 1024 - o < 8 * fuel) :
    match insertIn ino name rs with
    | none => insertRecord 1024 data ino name fileType fuel o = .ok none
    | some rs' => ∃ data', insertRecord 1024 data ino name fileType fuel o = .ok (some data') ∧
        Chain data' o rs' 1024 ∧ ∀ i < o, data' i = data i := by
  induction rs generalizing o fuel with
  | nil =>
    obtain rfl : o = 1024 := hc
    cases fuel with
    | zero => rfl
    | succ fuel => rfl
  | cons r rs ih =>
    obtain ⟨hr, hok, hrest⟩ := hc
    have hle := hrest.le
    have hlen := hok.1
    obtain ⟨fuel, rfl⟩ : ∃ k, fuel = k + 1 := ⟨fuel - 1, by omega⟩
    obtain ⟨-, hreclen, hnamelen, -⟩ := recordAt_fields hr
    have hstep : insertRecord 1024 data ino name fileType (fuel + 1) o =
        if r.actual + align4 (8 + name.length) ≤ r.len then
          .ok (some (splitRecord data o r.actual r.len ino name fileType))
        else insertRecord 1024 data ino name fileType fuel (o + r.len) := by
      rw [insertRecord, if_pos (by omega)]
      simp only [leU16, check_of (show o + 4 + 2 ≤ 1024 by omega), ok_bind,
        check_of (show o + 6 < 1024 by omega), hreclen, hnamelen]
      rw [if_neg (by omega)]
      by_cases hs : r.actual + align4 (8 + name.length) ≤ r.len
      · have hroom : o + r.actual + 8 + name.length ≤ 1024 := by
          unfold align4 at hs
          omega
        rw [if_pos hs, if_pos (show align4 (8 + r.name.length) + align4 (8 + name.length) ≤ r.len
          from hs)]
        change (Res.check (decide (o + r.actual + 8 + name.length ≤ 1024)) >>= _) = _
        rw [check_of hroom]
        rfl
      · rw [if_neg hs, if_neg (show ¬align4 (8 + r.name.length) + align4 (8 + name.length) ≤ r.len
          from hs)]
    rw [insertIn, hstep]
    by_cases hs : r.actual + align4 (8 + name.length) ≤ r.len
    · rw [if_pos hs, if_pos hs]
      have hact : 8 + r.name.length ≤ r.actual ∧ r.actual % 4 = 0 ∧
          8 + name.length ≤ align4 (8 + name.length) := by
        unfold DirRecord.actual align4
        omega
      have hmod := hok.2
      refine ⟨_, rfl, ⟨?_, ⟨hact.1, hact.2.1⟩, ?_, ⟨by dsimp only; omega, by dsimp only; omega⟩, ?_⟩,
        fun i hi => splitRecord_other (by omega) (by omega)⟩
      · exact recordAt_splitRecord_old (by omega) hr hact.1
      · exact recordAt_putRecord hino hname (by omega)
      rw [show o + r.actual + (r.len - r.actual) = o + r.len by omega]
      exact hrest.congr fun i h1 h2 => splitRecord_other (by omega) (by omega)
    rw [if_neg hs, if_neg hs]
    have := @ih (o + r.len) fuel hrest (by omega)
    rcases hins : insertIn ino name rs with _ | rs'
    · rw [hins] at this
      exact this
    rw [hins] at this
    obtain ⟨data', heq, hchain, hsame⟩ := this
    refine ⟨data', heq, ⟨recordAt_congr hr fun i hi => hsame _ (by omega), hok, hchain⟩,
      fun i hi => hsame i (by omega)⟩

/-- One step of `remove_dir_entry`. -/
theorem removeRecord_succ (previous : Option ℕ) (hr : recordAt data o = r)
    (hok : r.Ok) (hle : o + r.len ≤ 1024) :
    removeRecord 1024 data name (fuel + 1) previous o = if r.Live ∧ r.name = name then
        match previous with
        | some previousOffset => do
          let previousLen ← leU16 1024 data (previousOffset + 4)
          .ok (some (r.ino, data.setU16 (previousOffset + 4) (previousLen + r.len)))
        | none => .ok (some (r.ino, data.setU32 o 0))
      else removeRecord 1024 data name fuel (some o) (o + r.len) := by
  have hlen := hok.1
  obtain ⟨hino, hreclen, hnamelen, hslice⟩ := recordAt_fields hr
  rw [removeRecord, if_pos (by omega)]
  simp only [leU16, leU32, check_of (show o + 4 ≤ 1024 by omega),
    check_of (show o + 4 + 2 ≤ 1024 by omega), ok_bind,
    check_of (show o + 6 < 1024 by omega), hreclen, hnamelen, hino]
  rw [if_neg (by omega)]
  have hlive : (r.ino ≠ 0 ∧ r.name.length > 0 ∧ r.name.length ≤ r.len - 8) ↔ r.Live := by
    unfold DirRecord.Live
    rw [← length_pos_iff]
    constructor
    · exact fun h => ⟨h.1, h.2.1⟩
    · exact fun h => ⟨h.1, h.2, by omega⟩
  by_cases hl : r.Live
  · rw [if_pos (hlive.2 hl), check_of (show o + 8 + r.name.length ≤ 1024 by omega),
      ok_bind, hslice]
    by_cases hn : r.name = name
    · refine (if_pos hn).trans (Eq.trans ?_ (if_pos ⟨hl, hn⟩).symm)
      cases previous <;> rfl
    · rw [if_neg hn, if_neg fun hc => hn hc.2]
  · rw [if_neg fun hc => hl (hlive.1 hc), if_neg fun hc => hl hc.1]

theorem removeRecord_next (hp : recordAt data p = prev) (hpok : prev.Ok)
    (hpo : p + prev.len = o) (hc : Chain data o rs 1024) (hfuel : 1024 - o < 8 * fuel) :
    match removeNext name prev rs with
    | none => removeRecord 1024 data name fuel (some p) o = .ok none
    | some (ino, rs') => ∃ data', removeRecord 1024 data name fuel (some p) o =
        .ok (some (ino, data')) ∧ Chain data' p rs' 1024 ∧ ∀ i < p, data' i = data i := by
  induction rs generalizing o fuel p prev with
  | nil =>
    obtain rfl : o = 1024 := hc
    cases fuel with
    | zero => rfl
    | succ fuel => rfl
  | cons r rs ih =>
    obtain ⟨hr, hok, hrest⟩ := hc
    have hle := hrest.le
    have hlen := hok.1
    have hplen := hpok.1
    obtain ⟨fuel, rfl⟩ : ∃ k, fuel = k + 1 := ⟨fuel - 1, by omega⟩
    rw [removeNext, removeRecord_succ _ hr hok hle]
    by_cases hit : r.Live ∧ r.name = name
    · have hprevlen : data.u16At (p + 4) = prev.len := by rw [← hp]; rfl
      rw [if_pos hit, if_pos hit]
      simp only [leU16, check_of (show p + 4 + 2 ≤ 1024 by omega), ok_bind, hprevlen]
      refine ⟨_, rfl, ⟨recordAt_setLen hp (by omega), ⟨?_, ?_⟩, ?_⟩, fun i hi =>
        setU16_apply_out (by omega)⟩
      · dsimp only
        omega
      · have := hpok.2
        have := hok.2
        dsimp only
        omega
      · rw [← Nat.add_assoc, hpo]
        exact hrest.congr fun i h1 h2 => setU16_apply_out (by omega)
    rw [if_neg hit, if_neg hit]
    have := @ih r o (o + r.len) fuel hr hok rfl hrest (by omega)
    rcases hrem : removeNext name r rs with _ | ⟨ino, rs'⟩
    · rw [hrem] at this
      exact this
    rw [hrem] at this
    obtain ⟨data', heq, hchain, hsame⟩ := this
    refine ⟨data', heq, ⟨recordAt_congr hp fun i hi => hsame _ (by omega), hpok, ?_⟩,
      fun i hi => hsame i (by omega)⟩
    rwa [hpo]

theorem removeRecord_eq (hc : Chain data 0 rs 1024) :
    match removeIn name rs with
    | none => removeRecord 1024 data name 129 none 0 = .ok none
    | some (ino, rs') => ∃ data', removeRecord 1024 data name 129 none 0 =
        .ok (some (ino, data')) ∧ Chain data' 0 rs' 1024 := by
  cases rs with
  | nil => cases hc
  | cons r rs =>
    obtain ⟨hr, hok, hrest⟩ := hc
    have hlen := hok.1
    have hle := hrest.le
    rw [removeIn, removeRecord_succ _ hr hok hle]
    by_cases hit : r.Live ∧ r.name = name
    · rw [if_pos hit, if_pos hit]
      refine ⟨_, rfl, ?_, hok, hrest.congr fun i h1 h2 => setU32_apply_out (by omega)⟩
      subst hr
      ext1
      · exact u32At_setU32 _ _ _
      · exact u16At_setU32_ne (by omega)
      dsimp only [recordAt]
      exact slice_congr fun i _ _ => setU32_apply_out (by omega)
    rw [if_neg hit, if_neg hit]
    have := @removeRecord_next r 0 data (0 + r.len) 128 rs name hr hok rfl hrest (by omega)
    rcases hrem : removeNext name r rs with _ | ⟨ino, rs'⟩
    · rw [hrem] at this
      exact this
    rw [hrem] at this
    obtain ⟨data', heq, hchain, -⟩ := this
    exact ⟨data', heq, hchain⟩

end Code

end Ristux.Ext2
