import Ristux.Userland.ArWrite

-- `ar r` takes an archive that it cannot parse for an empty one, and the linker's reader parses
-- more archives than ar does. `Rewritable` are the archives that lose nothing.

namespace Ristux.Userland.Ar
open List Linker
open Ristux.Linker (Bytes arMagic)
open Ristux.Lib

/-- The archive has the members of the old one that the linker saw and that are not named on the
command line, and the named files (of two files with one base name, the later). -/
structure Contains (fs : Files) (old : Bytes) (files : List Bytes) (es : List (Bytes × Bytes)) :
    Prop where
  kept : (((seen old).map titled).filter fun e => ¬ ∃ file ∈ files, basename file = e.1).Sublist
    (es.map titled)
  placed : ∀ first file rest data, files = first ++ file :: rest → fs file = some data →
    (∀ g ∈ rest, basename g ≠ basename file) → (nameField (basename file), data) ∈ es

/-- `ar r` fails and changes nothing, or the new archive contains what it should. -/
def Keeps (fs : Files) (archive old : Bytes) (files : List Bytes) : Prop :=
  (replaceMembers fs archive files).code ≠ 0 ∧ (replaceMembers fs archive files).files = fs ∨
  ∃ new es, (replaceMembers fs archive files).files =
      (fun path => if path = archive then some new else fs path) ∧
    archiveEntries new = some es ∧ Contains fs old files es

/-- The archive ar reads these members from. -/
def ArchiveLayout (bytes : Bytes) (members : List Member) : Prop :=
  arMagic <+: bytes ∧ Layout (bytes.drop arMagic.length) members

/-- The archives that `ar r` rewrites without a loss, or never rewrites. -/
def Rewritable (old : Bytes) : Prop :=
  (∃ members, ArchiveLayout old members ∧ ∃ m ∈ members, 16 ≤ m.name.length) ∨
  (∀ members, ArchiveLayout old members → ∀ m ∈ members, m.name ≠ text "#1") ∧
    (seen old = [] ∨ (∃ members, ArchiveLayout old members) ∧ ∀ e ∈ seen old, ¬ Special e.1)

theorem parseArchive_iff (bytes : Bytes) (members : List Member) :
    parseArchive bytes = some members ↔ ArchiveLayout bytes members := by
  rw [parseArchive, ArchiveLayout, ← parseMembers_iff]
  by_cases h : arMagic <+: bytes
  · simp [h]
  · simp [h]

variable {fs : Files}

variable {archive bytes name : Bytes}

theorem loadArchive_eq (h : fs archive = some old) :
    loadArchive fs archive = (parseArchive old).getD [] := by
  rw [loadArchive, h, Option.bind_some]

variable {old : Bytes} {m : Member}

theorem mem_load (h : m ∈ (parseArchive old).getD []) : ∃ members, ArchiveLayout old members ∧
    m ∈ members := by
  cases hp : parseArchive old with
  | none =>
    rw [hp] at h
    cases h
  | some members =>
    rw [hp] at h
    exact ⟨members, (parseArchive_iff _ _).1 hp, h⟩

variable {members : List Member}

theorem load_of_layout (h : ArchiveLayout old members) : (parseArchive old).getD [] = members := by
  rw [(parseArchive_iff _ _).2 h]
  rfl

/-- What is known of a member that was read: its name begins with no whitespace, and its numbers
fit their fields again. -/
structure FromField (m : Member) : Prop where
  head : m.name.dropWhile isAsciiWhitespace = m.name
  safe : safeName m.name = true
  mode : m.mode < 8 ^ 8
  size : m.data.length < 10 ^ 10

theorem dropWhile_title (field : Bytes) :
    (title field).dropWhile isAsciiWhitespace = title field := by
  have hprefix : title field <+: trimAscii field := by
    rw [title, stripSlash]
    split
    · exact dropLast_prefix _
    · exact prefix_rfl
  cases ht : title field with
  | nil => rfl
  | cons b t =>
    obtain ⟨r, hr⟩ := hprefix
    have hhead : (trimBy isAsciiWhitespace field).head? = some b := by
      change (trimAscii field).head? = some b
      rw [← hr, ht]
      rfl
    rw [dropWhile_cons_of_neg (by simp [head?_trimBy hhead])]

theorem parseNumber_lt {field : Bytes} {base n : ℕ} (hbase : 2 ≤ base)
    (h : parseNumber field base = some n) : n < base ^ field.length := by
  have hlt := readDigits_lt h
  have hpow : base ^ (trimAscii field).length ≤ base ^ field.length :=
    Nat.pow_le_pow_right (by omega) (length_trimBy_le _ _)
  omega

theorem fromField_of_layout (h : Layout bytes members) : ∀ m ∈ members, FromField m := by
  induction h with
  | done _ =>
    intro m hm
    cases hm
  | table _ _ _ ih => exact ih
  | @member bytes mode size members hheader _ hshort _ ih =>
    intro m hm
    rcases mem_cons.1 hm with rfl | hm
    · have hlen := hheader.length
      have hin := hheader.inside
      simp only [headerLen] at hlen
      have hmode := parseNumber_lt (by omega) hheader.modeField
      have hsize := parseNumber_lt (by omega) hheader.sizeField
      simp only [length_take, length_drop] at hmode hsize
      rw [Nat.min_eq_left (by omega)] at hmode hsize
      refine ⟨dropWhile_title _, hshort.safe, hmode, ?_⟩
      rwa [length_take, Nat.min_eq_left hin]
    · exact ih m hm

theorem FromField.bsdNamed (h : FromField m) (hb : BsdNamed m.name) : m.name = text "#1" := by
  have himp : ∀ b : UInt8, (b == space) = true → isAsciiWhitespace b = true := by
    intro b hb
    rw [eq_of_beq hb]
    rfl
  rw [← h.head, ← dropWhile_dropWhile_of_imp himp, hb]
  rfl

theorem appendMember_of_archiveBytes (h : archiveBytes members = .ok bytes) :
    ∀ m ∈ members, ∃ front, appendMember m = some front := by
  induction members generalizing bytes with
  | nil =>
    intro m hm
    cases hm
  | cons member members ih =>
    rw [archiveBytes] at h
    split at h
    · cases h
    rename_i front hfront
    obtain ⟨rest, hrest, _⟩ := Fallible.map_eq_ok.1 h
    intro m hm
    rcases mem_cons.1 hm with rfl | hm
    · exact ⟨front, hfront⟩
    · exact ih hrest m hm

/-- The members of an archive that is seen and laid out for ar are the linker's. -/
theorem seen_sublist (h : ArchiveLayout old members) (hspecial : ∀ e ∈ seen old, ¬ Special e.1) :
    ((seen old).map titled).Sublist (members.map fun m => (m.name, m.data)) := by
  cases hp : parseArchiveMembers old with
  | error e =>
    rw [seen, hp]
    exact nil_sublist _
  | ok objects =>
    obtain ⟨es, hes, hseen, _⟩ := seen_objects hp
    have hentries : entries (old.drop arMagic.length) = some es := by
      rwa [archiveEntries, if_neg (not_not.2 h.1)] at hes
    rw [entries_layout h.2 hentries]
    refine Sublist.map _ ?_
    have hfilter : seen old = (seen old).filter fun e => ¬ Special e.1 := by
      symm
      rw [filter_eq_self]
      intro e he
      simpa using hspecial e he
    rw [hfilter, hseen, filter_filter]
    simp only [Bool.and_comm]
    rw [← filter_filter]
    exact filter_sublist

variable {files : List Bytes}

/-- Members that were read, and are not named, are found under their names in what is written. -/
theorem kept_placeFiles {es : List (Bytes × Bytes)}
    (hplace : placeFiles fs loaded files = .ok members) (hloaded : ∀ m ∈ loaded, FromField m)
    (hes : es.Sublist (loaded.map fun m => (m.name, m.data))) :
    (es.filter fun e => ¬ ∃ file ∈ files, basename file = e.1).Sublist
    ((members.map fun m => (nameField m.name, m.data)).map titled) := by
  let P : Bytes → Bool := fun n => decide (¬ ∃ file ∈ files, basename file = n)
  have hP : ∀ file ∈ files, P (basename file) = false := by
    intro file hf
    simp only [P, decide_eq_false_iff_not, not_not]
    exact ⟨file, hf, rfl⟩
  have hfilter := filter_placeFiles hplace hP
  have htitle : (members.filter (P ·.name)).map (fun m => (m.name, m.data)) =
      ((members.filter (P ·.name)).map fun m => (nameField m.name, m.data)).map titled := by
    rw [map_map]
    refine map_congr_left fun m hm => ?_
    rw [hfilter] at hm
    have hhead := (hloaded m (mem_filter.1 hm).1).head
    simp only [Function.comp_apply, titled, title_nameField, hhead]
  calc (es.filter fun e => P e.1).Sublist
        ((loaded.map fun m => (m.name, m.data)).filter fun e => P e.1) := hes.filter _
    _ = (members.filter (P ·.name)).map (fun m => (m.name, m.data)) := by
        rw [filter_map, hfilter]
        rfl
    _ = ((members.filter (P ·.name)).map fun m => (nameField m.name, m.data)).map titled := htitle
    Sublist _ ((members.map fun m => (nameField m.name, m.data)).map titled) :=
        (filter_sublist.map _).map _

theorem keeps_of_rewritable (h : Rewritable old) (hold : fs archive = some old)
    (hfiles : ∀ file ∈ files, ¬ BsdNamed (basename file)) : Keeps fs archive old files := by
  obtain hfail | ⟨members, bytes, hplace, hbytes, heq⟩ := replaceMembers_cases fs archive files
  · exact .inl hfail
  rw [loadArchive_eq hold] at hplace
  obtain ⟨loaded, hlayout, m, hm, hlong⟩ | ⟨hbsd, hseen⟩ := h
  · rw [load_of_layout hlayout] at hplace
    have hmem : m ∈ members := by
      apply mem_placeFiles_of_mem hplace hm
      rintro file hf hname
      have := basename_of_placeFiles hplace file hf
      rw [hname] at this
      omega
    obtain ⟨front, hfront⟩ := appendMember_of_archiveBytes hbytes m hmem
    have := (appendMember_written hfront).1.short
    omega
  right
  have hnames : ∀ m ∈ members, ¬ BsdNamed m.name := by
    intro m hm hb
    obtain hm | ⟨file, hf, data, rfl⟩ := mem_of_mem_placeFiles hplace hm
    · obtain ⟨loaded, hlayout, hm⟩ := mem_load hm
      exact hbsd loaded hlayout m hm ((fromField_of_layout hlayout.2 m hm).bsdNamed hb)
    · exact hfiles file hf hb
  refine ⟨arMagic ++ bytes, members.map fun m => (nameField m.name, m.data), by rw [heq], ?_, ?_⟩
  · rw [archiveEntries_append]
    exact (entries_archiveBytes hbytes).1 hnames
  refine ⟨?_, ?_⟩
  · obtain hnil | ⟨⟨loaded, hlayout⟩, hspecial⟩ := hseen
    · rw [hnil]
      exact nil_sublist _
    rw [load_of_layout hlayout] at hplace
    exact kept_placeFiles hplace (fromField_of_layout hlayout.2)
      (seen_sublist hlayout hspecial)
  · rintro first file rest data rfl hdata hlast
    exact mem_map.2 ⟨_, mem_placeFiles hplace hdata hlast, rfl⟩

theorem writeUsizeField_some {width value base : ℕ} (hbase : 2 ≤ base) (hwidth : 0 < width)
    (h : value < base ^ width) : ∃ bytes, writeUsizeField width value base = some bytes := by
  have hlen := length_digits_le hbase hwidth h
  exact ⟨_, if_neg (by omega)⟩

theorem appendMember_some (hshort : m.name.length + 1 ≤ 16) (hsafe : safeName m.name = true)
    (hmode : m.mode < 8 ^ 8) (hsize : m.data.length < 10 ^ 10) : ∃ bytes,
    appendMember m = some bytes := by
  have hname : ∃ bytes, writeField 16 (m.name ++ [slash]) = some bytes :=
    ⟨_, if_neg (by simp only [length_append, length_singleton]; omega)⟩
  obtain ⟨name, hname⟩ := hname
  have hzero : ∀ width, 0 < width → ∃ bytes, writeUsizeField width 0 10 = some bytes :=
    fun width hwidth => writeUsizeField_some (by omega) hwidth (Nat.pow_pos (by omega))
  obtain ⟨date, hdate⟩ := hzero 12 (by omega)
  obtain ⟨id, hid⟩ := hzero 6 (by omega)
  obtain ⟨mode, hmode⟩ := writeUsizeField_some (by omega) (by omega) hmode
  obtain ⟨size, hsize⟩ := writeUsizeField_some (by omega) (by omega) hsize
  have hcond : ¬ (16 < m.name.length + 1 ∨ (!safeName m.name) = true) := by
    rw [hsafe]
    simp only [Bool.not_true, Bool.false_eq_true, or_false]
    omega
  rw [appendMember, if_neg hcond, hname, hdate, hid, hmode, hsize]
  exact ⟨_, rfl⟩

theorem archiveBytes_ok (h : ∀ m ∈ members, ∃ bytes, appendMember m = some bytes) : ∃ bytes,
    archiveBytes members = .ok bytes := by
  induction members with
  | nil => exact ⟨_, rfl⟩
  | cons member members ih =>
    obtain ⟨front, hfront⟩ := h member mem_cons_self
    obtain ⟨rest, hrest⟩ := ih (forall_mem_cons.1 h).2
    refine ⟨front ++ rest, ?_⟩
    rw [archiveBytes, hfront, hrest]
    rfl

/-- A file system that holds the archive, and nothing in any other file. -/
def onlyArchive (old : Bytes) : Files := fun path =>
  if path = text "lib" then some old else some []

/-- One letter that is a file's name. -/
structure Letter (name : Bytes) : Prop where
  base : basename name = name
  short : name.length + 1 ≤ 16
  safe : safeName name = true
  notLib : name ≠ text "lib"
  title : name.dropWhile isAsciiWhitespace = name
  notBsd : ¬ BsdNamed name

theorem letter_a : Letter (text "a") := by
  constructor <;> decide

theorem letter_b : Letter (text "b") := by
  constructor <;> decide

theorem fromField_load : ∀ m ∈ (parseArchive old).getD [], FromField m := by
  intro m hm
  obtain ⟨members, hlayout, hm⟩ := mem_load hm
  exact fromField_of_layout hlayout.2 m hm

/-- `ar r` writes an archive of short names back with an empty file added to it. -/
theorem replace_letter (hname : Letter name)
    (hshort : ∀ m ∈ (parseArchive old).getD [], m.name.length + 1 ≤ 16) :
    ∃ bytes, archiveBytes (place ⟨name, [], 0o100644⟩ ((parseArchive old).getD [])) = .ok bytes ∧
      replaceMembers (onlyArchive old) (text "lib") [name] = ⟨0, fun path =>
        if path = text "lib" then some (arMagic ++ bytes) else onlyArchive old path, []⟩ := by
  have hload : loadArchive (onlyArchive old) (text "lib") = (parseArchive old).getD [] :=
    loadArchive_eq (by simp [onlyArchive])
  have hplace : ∀ loaded, placeFiles (onlyArchive old) loaded [name] =
      .ok (place ⟨name, [], 0o100644⟩ loaded) := by
    intro loaded
    have hcond : ¬ (16 < name.length + 1 ∨ (!safeName name) = true) := by
      have := hname.short
      rw [hname.safe]
      simp only [Bool.not_true, Bool.false_eq_true, or_false]
      omega
    simp only [placeFiles, hname.base, if_neg hcond, onlyArchive, if_neg hname.notLib]
  obtain ⟨bytes, hbytes⟩ : ∃ bytes,
      archiveBytes (place ⟨name, [], 0o100644⟩ ((parseArchive old).getD [])) = .ok bytes := by
    apply archiveBytes_ok
    intro m hm
    rcases mem_of_mem_place hm with rfl | hm
    · exact appendMember_some hname.short hname.safe (show 0o100644 < 8 ^ 8 by decide)
        (show 0 < 10 ^ 10 by decide)
    · have := fromField_load m hm
      exact appendMember_some (hshort m hm) this.safe this.mode this.size
  refine ⟨bytes, hbytes, ?_⟩
  rw [replaceMembers, if_neg (by simp), hload, hplace]
  simp only [hbytes]

/-- What is left of the archive then. -/
theorem keeps_letter (hname : Letter name)
    (hshort : ∀ m ∈ (parseArchive old).getD [], m.name.length + 1 ≤ 16)
    (h : Keeps (onlyArchive old) (text "lib") old [name]) :
    (∀ m ∈ (parseArchive old).getD [], m.name ≠ name → ¬ BsdNamed m.name) ∧
    ∀ e ∈ seen old, title e.1 = name ∨ ∃ m ∈ (parseArchive old).getD [], title e.1 = m.name := by
  obtain ⟨bytes, hbytes, hrun⟩ := replace_letter hname hshort
  have hfrom : ∀ m ∈ (parseArchive old).getD [], FromField m := fromField_load
  generalize (parseArchive old).getD [] = loaded at *
  rw [Keeps, hrun] at h
  obtain ⟨hcode, _⟩ | ⟨new, es, hnew, hes, hcontains⟩ := h
  · exact absurd rfl hcode
  have hnew := congrFun hnew (text "lib")
  simp only [if_true, Option.some.injEq] at hnew
  rw [← hnew, archiveEntries_append] at hes
  obtain ⟨hgood, hbad⟩ := entries_archiveBytes hbytes
  have hnames : ∀ m ∈ place ⟨name, [], 0o100644⟩ loaded, ¬ BsdNamed m.name := by
    intro m hm hb
    rw [hbad ⟨m, hm, hb⟩] at hes
    cases hes
  rw [hgood hnames] at hes
  cases hes
  refine ⟨fun m hm hne => hnames m (mem_place_of_mem hm hne), fun e he => ?_⟩
  by_cases htitle : title e.1 = name
  · exact .inl htitle
  have hmem : titled e ∈ ((seen old).map titled).filter
      fun e => ¬ ∃ file ∈ [name], basename file = e.1 := by
    refine mem_filter.2 ⟨mem_map_of_mem he, ?_⟩
    simpa [hname.base, titled] using Ne.symm htitle
  obtain ⟨e', he', heq⟩ := mem_map.1 (hcontains.kept.mem hmem)
  obtain ⟨m, hm, rfl⟩ := mem_map.1 he'
  have heq := congrArg Prod.fst heq
  simp only [titled, title_nameField] at heq
  rcases mem_of_mem_place hm with rfl | hm
  · rw [hname.title] at heq
    exact .inl heq.symm
  · rw [(hfrom m hm).head] at heq
    exact .inr ⟨m, hm, heq.symm⟩

theorem not_special_of_safe {field : Bytes} (h : safeName (title field) = true) :
    ¬ Special field := by
  rintro (hs | hs)
  all_goals
    rw [title, hs] at h
    exact absurd h (by decide)

theorem rewritable_of_keeps (h : ∀ fs archive files, fs archive = some old →
      (∀ file ∈ files, ¬ BsdNamed (basename file)) → Keeps fs archive old files) :
    Rewritable old := by
  by_cases hlong : ∃ members, ArchiveLayout old members ∧ ∃ m ∈ members, 16 ≤ m.name.length
  · exact .inl hlong
  have hshort : ∀ m ∈ (parseArchive old).getD [], m.name.length + 1 ≤ 16 := by
    intro m hm
    obtain ⟨members, hlayout, hm⟩ := mem_load hm
    by_contra hlen
    exact hlong ⟨members, hlayout, m, hm, by omega⟩
  have hletter : ∀ name, Letter name →
      (∀ m ∈ (parseArchive old).getD [], m.name ≠ name → ¬ BsdNamed m.name) ∧
      ∀ e ∈ seen old, title e.1 = name ∨ ∃ m ∈ (parseArchive old).getD [], title e.1 = m.name := by
    intro name hname
    refine keeps_letter hname hshort (h _ _ _ (by simp [onlyArchive]) ?_)
    intro file hf
    rw [mem_singleton.1 hf, hname.base]
    exact hname.notBsd
  obtain ⟨hbsd, hseen⟩ := hletter _ letter_a
  have hseen' := (hletter _ letter_b).2
  refine .inr ⟨fun members hlayout m hm heq => ?_, ?_⟩
  · rw [load_of_layout hlayout] at hbsd
    exact hbsd m hm (by rw [heq]; decide) (by rw [heq]; decide)
  by_cases hnil : seen old = []
  · exact .inl hnil
  right
  have hmem : ∀ e ∈ seen old, ∃ m ∈ (parseArchive old).getD [], title e.1 = m.name := by
    intro e he
    obtain ha | hm := hseen e he
    · exact (hseen' e he).resolve_left (by rw [ha]; decide)
    · exact hm
  constructor
  · obtain ⟨e, he⟩ := exists_mem_of_ne_nil _ hnil
    obtain ⟨m, hm, _⟩ := hmem e he
    obtain ⟨members, hlayout, _⟩ := mem_load hm
    exact ⟨members, hlayout⟩
  intro e he hspecial
  obtain ⟨m, hm, heq⟩ := hmem e he
  obtain ⟨members, hlayout, hm⟩ := mem_load hm
  have hsafe := (fromField_of_layout hlayout.2 m hm).safe
  rw [← heq] at hsafe
  exact not_special_of_safe hsafe hspecial

/-- A file whose name is taken for the mark of a long name spoils the archive for the linker. -/
theorem not_keeps_of_bsdNamed (hcode : (replaceMembers fs archive files).code = 0)
    (h : ∃ file ∈ files, BsdNamed (basename file)) : ¬ Keeps fs archive old files := by
  rintro (⟨hne, _⟩ | ⟨new, es, hnew, hes, _⟩)
  · exact hne hcode
  obtain ⟨hne, _⟩ | ⟨members, bytes, hplace, hbytes, heq⟩ := replaceMembers_cases fs archive files
  · exact hne hcode
  have hbsd : ∃ m ∈ members, BsdNamed m.name := by
    obtain ⟨file, hf, hb⟩ := h
    obtain ⟨m, hm, hname⟩ := mem_map.1 (name_mem_placeFiles hplace hf)
    exact ⟨m, hm, hname ▸ hb⟩
  have hnew := congrFun hnew archive
  rw [heq] at hnew
  simp only [if_true, Option.some.injEq] at hnew
  rw [← hnew, archiveEntries_append, (entries_archiveBytes hbytes).2 hbsd] at hes
  cases hes

/-- For an archive and all files whose names are not taken for the mark of a long name, `ar r`
keeps the members exactly when the archive is rewritable; and a file with such a name spoils every
archive it is written to. -/
theorem ar_keeps_members_iff (old : Bytes) : ((∀ fs archive files, fs archive = some old →
        (∀ file ∈ files, ¬ BsdNamed (basename file)) → Keeps fs archive old files) ↔
      Rewritable old) ∧
    ∀ fs archive files, fs archive = some old → (∃ file ∈ files, BsdNamed (basename file)) →
      (replaceMembers fs archive files).code = 0 → ¬ Keeps fs archive old files :=
  ⟨⟨rewritable_of_keeps, fun h _ _ _ hold hfiles => keeps_of_rewritable h hold hfiles⟩,
    fun _ _ _ _ h hcode => not_keeps_of_bsdNamed hcode h⟩

/-- An object file without sections. -/
def tinyObject : Bytes :=
  elfMagic ++ [2, 1] ++ zeros 10 ++ [1, 0, 0x3e, 0] ++ zeros 38 ++
    [64, 0, 0, 0, 0, 0]

/-- An archive of one object with the name `xx` in the BSD way. -/
def bsdArchive : Bytes :=
  arMagic ++ (text "#1/2            0           0     0     100644  66        " ++ headerEnd ++
    text "xx" ++ tinyObject)

theorem seen_bsdArchive : seen bsdArchive = [(text "#1/2            ", tinyObject)] := by
  have hentry : Entry (bsdArchive.drop arMagic.length) 66 tinyObject := by
    refine ⟨by decide +kernel, by decide +kernel, by decide +kernel, by decide +kernel, ?_⟩
    rfl
  have hentries : archiveEntries bsdArchive = some [(text "#1/2            ", tinyObject)] := by
    have hafter : afterMember (bsdArchive.drop arMagic.length) 66 = [] := by decide +kernel
    rw [archiveEntries, if_neg (by decide +kernel), entries_of_entry hentry, hafter, entries,
      if_pos rfl]
    rfl
  cases hobjects : parseArchiveMembers bsdArchive with
  | error e =>
    have hok : (parseArchiveMembers bsdArchive).toBool = true := by decide +kernel
    rw [hobjects] at hok
    cases hok
  | ok objects =>
    rw [seen, hobjects, hentries]
    exact filter_cons_of_pos (by decide +kernel)

/-- Adding an empty file `a` to it drops the object. -/
theorem bsdArchive_loses_object :
    ¬ Keeps (onlyArchive bsdArchive) (text "lib") bsdArchive [text "a"] ∧
      (replaceMembers (onlyArchive bsdArchive) (text "lib") [text "a"]).code = 0 := by
  have hload : (parseArchive bsdArchive).getD [] = [] := by
    have hname : memberName ((bsdArchive.drop arMagic.length).take headerLen) = none := by
      decide +kernel
    rw [parseArchive, if_neg (by decide +kernel), parseMembers, dif_pos (by decide +kernel),
      if_neg (by decide +kernel), hname]
    rfl
  have hshort : ∀ m ∈ (parseArchive bsdArchive).getD [], m.name.length + 1 ≤ 16 := by
    rw [hload]
    simp
  constructor
  · intro h
    have hkeeps := (keeps_letter letter_a hshort h).2
    rw [seen_bsdArchive, hload] at hkeeps
    obtain htitle | ⟨m, hm, _⟩ := hkeeps _ mem_cons_self
    · exact absurd htitle (by decide)
    · cases hm
  · obtain ⟨bytes, _, hrun⟩ := replace_letter letter_a hshort
    rw [hrun]

theorem parseMembers_append (h : appendMember m = some front)
    (hhead : m.name.dropWhile isAsciiWhitespace = m.name) (rest : Bytes) :
    parseMembers (front ++ rest) =
      if m.name = text "#1" then none else (parseMembers rest).map (m :: ·) := by
  obtain ⟨hw, hmode⟩ := appendMember_written h
  obtain ⟨hname, hlen, hend, hsize, hin, hdata, hafter⟩ := hw.front rest
  have hheader : Header (front ++ rest) m.mode m.data.length :=
    ⟨hlen, hend, hmode rest, parseNumber_of_parseDecimal hsize, hin⟩
  have htitle : title ((front ++ rest).take 16) = m.name := by rw [hname, title_nameField, hhead]
  have hsafe := hw.safe
  rw [← htitle] at hsafe
  have hbsd : text "#1/" <+: trimAscii ((front ++ rest).take 16) ↔ m.name = text "#1" := by
    rw [hname, trimAscii, trimBy_nameField _ (by decide) (by decide), hhead, prefix_iff_eq_take,
      eq_comm]
    exact take_three_iff (slash_notMem_of_safe hw.safe)
  rw [parseMembers_of_header hheader, hafter, hdata]
  by_cases hb : m.name = text "#1"
  · rw [if_pos hb]
    cases hn : memberName ((front ++ rest).take headerLen) with
    | none => rfl
    | some name =>
      obtain ⟨hs, -⟩ | ⟨-, hs, -⟩ := memberName_eq_some hn
      · exact absurd hs (not_special_of_safe hsafe)
      · exact absurd (hbsd.2 hb) hs.notBsd
  rw [if_neg hb, memberName_of_short (not_special_of_safe hsafe) ⟨fun h => hb (hbsd.1 h), hsafe⟩,
    htitle, Option.bind_some, safeName_ne_nil hw.safe]
  cases parseMembers rest <;> rfl

theorem parseMembers_archiveBytes (h : archiveBytes members = .ok bytes)
    (hhead : ∀ m ∈ members, m.name.dropWhile isAsciiWhitespace = m.name) :
    parseMembers bytes = some members ↔ ∀ m ∈ members, m.name ≠ text "#1" := by
  induction members generalizing bytes with
  | nil =>
    cases h
    rw [parseMembers]
    simp [headerLen]
  | cons member members ih =>
    rw [archiveBytes] at h
    split at h
    · cases h
    rename_i front hfront
    obtain ⟨rest, hrest, rfl⟩ := Fallible.map_eq_ok.1 h
    obtain ⟨hself, hhead⟩ := forall_mem_cons.1 hhead
    rw [parseMembers_append hfront hself, forall_mem_cons, ← ih hrest hhead]
    split
    · next hbsd => simp [hbsd]
    · next hbsd => simp [hbsd]

/-- ar reads what it writes unless a name begins with whitespace or is the mark of a long one. -/
theorem parse_written_iff (members : List Member) :
    match archiveBytes members with
    | .error _ => True
    | .ok bytes => parseArchive (arMagic ++ bytes) = some members ↔
      ∀ m ∈ members, m.name.dropWhile isAsciiWhitespace = m.name ∧ m.name ≠ text "#1" := by
  split
  · trivial
  next bytes h =>
  rw [show parseArchive (arMagic ++ bytes) = parseMembers bytes by simp [parseArchive]]
  constructor
  · intro hread
    have hhead : ∀ m ∈ members, m.name.dropWhile isAsciiWhitespace = m.name := fun m hm =>
      (fromField_of_layout ((parseMembers_iff _ _).1 hread) m hm).head
    exact fun m hm => ⟨hhead m hm, (parseMembers_archiveBytes h hhead).1 hread m hm⟩
  · intro hnames
    exact (parseMembers_archiveBytes h fun m hm => (hnames m hm).1).2 fun m hm => (hnames m hm).2

/-- A member of the name `#1` is written, and then the archive cannot be read. -/
theorem mark_not_read : ∃ bytes, archiveBytes [⟨text "#1", [], 0⟩] = .ok bytes ∧
    parseArchive (arMagic ++ bytes) = none := by
  obtain ⟨front, hfront⟩ := appendMember_some (m := ⟨text "#1", [], 0⟩) (by decide) (by decide)
    (by decide) (by decide)
  refine ⟨front ++ [], by rw [archiveBytes, hfront]; rfl, ?_⟩
  have hparse := parseMembers_append hfront (by decide) []
  simpa [parseArchive] using hparse

end Ristux.Userland.Ar
