import Ristux.Userland.ArRead

-- What `write_archive` has written is read back by the linker's reader (`entries_archiveBytes`),
-- unless a name is taken for the mark of a long one; and placing files leaves the members of
-- other names as they are.

namespace Ristux.Userland.Ar
open List Linker Option
open Ristux.Linker (Bytes arMagic)
open Ristux.Lib

variable {P : Bytes → Bool}

theorem length_of_writeField (h : writeField width value = some bytes) :
    value.length ≤ width ∧ bytes = value ++ List.replicate (width - value.length) space := by
  unfold writeField at h
  split at h
  · cases h
  · exact ⟨by omega, (some.inj h).symm⟩

theorem length_writeField (h : writeField width value = some bytes) :
    bytes.length = width := by
  obtain ⟨hle, rfl⟩ := length_of_writeField h
  simp only [length_append, length_replicate]
  omega

variable {bytes : Bytes}

/-- A number field without its spaces is the digits of the number, which are read back. -/
theorem trimBy_writeUsizeField {value base : ℕ}
    (h : writeUsizeField width value base = some bytes) (hbase : 2 ≤ base) (hten : base ≤ 10)
    (hwidth : base ^ width ≤ usizeMax) (hspace : p space = true)
    (hdigit : ∀ b, isAsciiDigit b = true → p b = false) :
    trimBy p bytes = digits base value ∧ readDigits base 0 (digits base value) = some value := by
  obtain ⟨hle, rfl⟩ := length_of_writeField h
  have hdigits : ∀ b ∈ digits base value, p b = false := fun b hb =>
    hdigit b (isAsciiDigit_of_mem_digits hbase hten b hb)
  have hfits : value ≤ usizeMax := by
    have hlt : value < base ^ (digits base value).length := lt_pow_length_digits hbase
    have hpow : base ^ (digits base value).length ≤ base ^ width :=
      Nat.pow_le_pow_right (by omega) hle
    omega
  refine ⟨?_, readDigits_digits hbase hten hfits⟩
  exact trimBy_append (x := []) (fun b hb => hdigits b (mem_of_head? hb))
    (fun b hb => hdigits b (mem_of_getLast? hb)) (digits_ne_nil base value) (by simp)
    (by simp [hspace])

theorem parseDecimal_writeUsizeField (hwidth : 10 ^ width ≤ usizeMax)
    (h : writeUsizeField width value 10 = some bytes) : parseDecimal bytes = some value := by
  obtain ⟨htrim, hread⟩ := trimBy_writeUsizeField (p := (· == Linker.space)) h (by decide)
    (by decide) hwidth rfl fun b hb => beq_false_of_ne fun heq => absurd (heq ▸ hb) (by decide)
  rw [parseDecimal, show trimAsciiSpace bytes = digits 10 value from htrim,
    if_neg (by simpa using digits_ne_nil 10 value), parseDecimal_eq_readDigits, hread]

/-- A member as it stands in a written archive: its header is the name field, other fields, the
size field and the end, and the data follows. -/
structure Written (member : Member) (bytes : Bytes) : Prop where
  short : member.name.length + 1 ≤ 16
  safe : safeName member.name = true
  shape : ∃ middle size pad : Bytes, middle.length = 32 ∧ size.length = 10 ∧
    pad.length = member.data.length % 2 ∧
    parseDecimal size = some member.data.length ∧
    bytes = nameField member.name ++ middle ++ size ++ headerEnd ++ member.data ++ pad

theorem appendMember_written (h : appendMember member = some bytes) : Written member bytes ∧
    ∀ rest, parseNumber (((bytes ++ rest).drop 40).take 8) 8 = some member.mode := by
  unfold appendMember at h
  split at h
  · cases h
  rename_i hname
  simp only [not_or, Nat.not_lt, Bool.not_eq_true', Bool.not_eq_false] at hname
  simp only [bind_eq_bind, bind_eq_some_iff, some.injEq] at h
  obtain ⟨name, hn, date, hd, uid, hu, gid, hg, mode, hm, size, hs, rfl⟩ := h
  have h40 : ∀ tail, (name ++ date ++ uid ++ gid ++ tail).drop 40 = tail := fun tail =>
    drop_left' (by simp only [length_append, length_writeField hn, length_writeField hd,
      length_writeField hu, length_writeField hg])
  obtain ⟨htrim, hread⟩ := trimBy_writeUsizeField hm (by decide) (by decide) (by decide)
    (p := isAsciiWhitespace) rfl fun b hb => isAsciiWhitespace_of_digit hb
  obtain ⟨_, rfl⟩ := length_of_writeField hn
  refine ⟨⟨hname.1, hname.2, date ++ uid ++ gid ++ mode, size,
    if member.data.length % 2 ≠ 0 then [newline] else [], ?_, length_writeField hs, ?_,
    parseDecimal_writeUsizeField (by decide) hs, ?_⟩, fun rest => ?_⟩
  · simp only [length_append, length_writeField hd, length_writeField hu,
      length_writeField hg, length_writeField hm]
  · split
    · simp only [length_singleton]
      omega
    · simp only [length_nil]
      omega
  · simp [nameField]
  · simp only [append_assoc] at h40 ⊢
    rw [h40, take_left' (length_writeField hm), parseNumber, trimAscii, htrim, hread]

/-- A name whose field reads as the mark of a long name of the BSD kind. -/
def BsdNamed (name : Bytes) : Prop := name.dropWhile (· == space) = text "#1"

instance (name : Bytes) : Decidable (BsdNamed name) := inferInstanceAs (Decidable (_ = _))

theorem slash_notMem_of_safe (h : safeName name = true) : slash ∉ name := by
  simp only [safeName, Bool.and_eq_true, Bool.not_eq_true', contains_eq_mem,
    decide_eq_false_iff_not] at h
  exact h.1.2

/-- Trimming a name field leaves the name without what was in front of it, and the slash. -/
theorem trimBy_nameField (name : Bytes) (hslash : p slash = false)
    (hspace : p space = true) : trimBy p (nameField name) = name.dropWhile p ++ [slash] := by
  have hshape : nameField name = name.takeWhile p ++ (name.dropWhile p ++ [slash]) ++
      List.replicate (16 - (name ++ [slash]).length) space := by
    rw [nameField, ← append_assoc (name.takeWhile p), takeWhile_append_dropWhile]
  rw [hshape]
  apply trimBy_append
  · intro b hb
    cases hd : name.dropWhile p with
    | nil =>
      rw [hd] at hb
      exact some.inj hb ▸ hslash
    | cons c d =>
      have := head?_dropWhile_not p name
      rw [hd] at hb this
      cases hb
      simpa using this
  · intro b hb
    rw [getLast?_append] at hb
    exact some.inj hb ▸ hslash
  · simp
  · intro b hb
    exact all_eq_true.1 all_takeWhile b hb
  · simp [hspace]

theorem title_nameField : title (nameField name) = name.dropWhile isAsciiWhitespace := by
  rw [title, trimAscii, trimBy_nameField name (by decide) (by decide), stripSlash]
  simp

theorem take_three_iff (h : slash ∉ name) : (name ++ [slash]).take 3 = text "#1/" ↔
    name = text "#1" := by
  constructor
  · intro htake
    match name, h, htake with
    | [], _, htake => exact absurd htake (by decide)
    | [a], _, htake => exact absurd (congrArg List.length htake) (by simp [text])
    | [a, b], _, htake =>
      have hab : a = 0x23 ∧ b = 0x31 ∧ slash = 0x2f := by simpa [text] using htake
      rw [hab.1, hab.2.1]
      rfl
    | a :: b :: c :: name, h, htake =>
      have hc : c = slash := by
        exact (List.cons.inj (List.cons.inj (List.cons.inj htake).2).2).1
      exact absurd (by simp [hc]) h
  · rintro rfl
    rfl

/-- The payload of a written member is its data, unless its name is taken for the mark of a long
name; then there is none. -/
theorem payload_nameField (data : Bytes) (h : slash ∉ name) :
    (¬ BsdNamed name → archiveMemberPayload (trimAsciiSpace (nameField name)) data =
      .ok data) ∧ (BsdNamed name → ∀ payload,
      archiveMemberPayload (trimAsciiSpace (nameField name)) data ≠ .ok payload) := by
  have htrim : trimAsciiSpace (nameField name) = name.dropWhile (· == space) ++ [slash] := by
    exact trimBy_nameField name (by decide) (by decide)
  have hdrop : slash ∉ name.dropWhile (· == space) := fun hm => h (dropWhile_subset _ hm)
  have hiff := take_three_iff hdrop
  rw [htrim, archiveMemberPayload]
  constructor
  · intro hbsd
    rw [if_neg]
    exact fun htake => hbsd (hiff.1 htake)
  intro hbsd payload
  have hthree : (name.dropWhile (· == space) ++ [slash]).take 3 = [0x23, 0x31, 0x2f] :=
    hiff.2 hbsd
  rw [if_pos hthree, hbsd]
  intro hp
  obtain ⟨n, hn, _⟩ := Fallible.bind_eq_ok.1 hp
  cases hn

theorem length_nameField (h : name.length + 1 ≤ 16) : (nameField name).length = 16 := by
  simp only [nameField, length_append, length_replicate, length_singleton]
  omega

section
variable (h : Written member bytes)
include h

/-- A written member at the front of an archive. -/
theorem Written.front (rest : Bytes) :
    (bytes ++ rest).take 16 = nameField member.name ∧ headerLen ≤ (bytes ++ rest).length ∧
    ((bytes ++ rest).drop 58).take 2 = headerEnd ∧
    parseDecimal (((bytes ++ rest).drop 48).take 10) = some member.data.length ∧
    member.data.length ≤ ((bytes ++ rest).drop headerLen).length ∧
    ((bytes ++ rest).drop headerLen).take member.data.length = member.data ∧
    afterMember (bytes ++ rest) member.data.length = rest := by
  obtain ⟨middle, size, pad, hmiddle, hsize, hpad, hparse, rfl⟩ := h.shape
  have hname := length_nameField h.short
  generalize hfield : nameField member.name = name at hname
  have h48 : ∀ tail : Bytes, (name ++ middle ++ tail).drop 48 = tail := fun tail =>
    drop_left' (by simp [hname, hmiddle])
  have h58 : ∀ tail : Bytes, (name ++ middle ++ size ++ tail).drop 58 = tail := fun tail =>
    drop_left' (by simp [hname, hmiddle, hsize])
  have h60 : ∀ tail : Bytes, (name ++ middle ++ size ++ headerEnd ++ tail).drop headerLen = tail :=
    fun tail => drop_left' (by simp [hname, hmiddle, hsize, headerEnd, headerLen])
  refine ⟨?_, ?_, ?_, ?_, ?_, ?_, ?_⟩
  · simp only [append_assoc]
    exact take_left' hname
  · simp only [length_append, hname, hmiddle, hsize, headerEnd, length_cons, length_nil, headerLen]
    omega
  · simp only [append_assoc] at h58 ⊢
    rw [h58]
    rfl
  · simp only [append_assoc] at h48 ⊢
    rw [h48, take_left' hsize, hparse]
  · simp only [append_assoc] at h60 ⊢
    rw [h60]
    simp
  · simp only [append_assoc] at h60 ⊢
    rw [h60]
    exact take_left
  · simp only [append_assoc] at h60 ⊢
    rw [afterMember, ← drop_drop, h60, ← append_assoc, drop_left']
    rw [length_append, hpad]

theorem Written.entry (hbsd : ¬ BsdNamed member.name) (rest : Bytes) :
    Entry (bytes ++ rest) member.data.length member.data := by
  obtain ⟨hname, hlen, hend, hsize, hin, hdata, _⟩ := h.front rest
  refine ⟨hlen, hend, hsize, hin, ?_⟩
  rw [hname, hdata]
  exact (payload_nameField _ (slash_notMem_of_safe h.safe)).1 hbsd

theorem Written.no_entry (hbsd : BsdNamed member.name) (rest : Bytes) :
    entries (bytes ++ rest) = none := by
  obtain ⟨hname, hlen, _, _, _, _, _⟩ := h.front rest
  rw [eq_none_iff_forall_not_mem]
  intro es hes
  have hne : bytes ++ rest ≠ [] := by
    intro hnil
    rw [hnil] at hlen
    exact absurd hlen (by decide)
  obtain ⟨size, payload, hentry⟩ := entry_of_entries hne hes
  have hpayload := hentry.payload
  rw [hname] at hpayload
  exact (payload_nameField _ (slash_notMem_of_safe h.safe)).2 hbsd _ hpayload

end

/-- The linker reads what ar has written, unless a name is taken for the mark of a long one. -/
theorem entries_archiveBytes (h : archiveBytes members = .ok bytes) :
    ((∀ m ∈ members, ¬ BsdNamed m.name) →
      entries bytes = some (members.map fun m => (nameField m.name, m.data))) ∧
    ((∃ m ∈ members, BsdNamed m.name) → entries bytes = none) := by
  induction members generalizing bytes with
  | nil =>
    cases h
    refine ⟨fun _ => by rw [entries, if_pos rfl]; rfl, ?_⟩
    rintro ⟨m, hm, _⟩
    cases hm
  | cons member members ih =>
    rw [archiveBytes] at h
    split at h
    · cases h
    rename_i front hfront
    obtain ⟨rest, hrest, rfl⟩ := Fallible.map_eq_ok.1 h
    obtain ⟨hgood, hbad⟩ := ih hrest
    have hwritten := (appendMember_written hfront).1
    obtain ⟨hname, _, _, _, _, _, hafter⟩ := hwritten.front rest
    by_cases hbsd : BsdNamed member.name
    · refine ⟨fun hall => absurd hbsd (hall member mem_cons_self), fun _ => ?_⟩
      exact hwritten.no_entry hbsd rest
    have hstep := entries_of_entry (hwritten.entry hbsd rest)
    rw [hname, hafter] at hstep
    refine ⟨fun hall => ?_, fun hex => ?_⟩
    · rw [hstep, hgood (forall_mem_cons.1 hall).2]
      rfl
    obtain ⟨m, hm, hmb⟩ := hex
    rcases mem_cons.1 hm with rfl | hm
    · exact absurd hmb hbsd
    · rw [hstep, hbad ⟨m, hm, hmb⟩]
      rfl

theorem filter_place (h : P member.name = false) :
    (place member members).filter (P ·.name) = members.filter (P ·.name) := by
  induction members with
  | nil => simp [place, h]
  | cons entry members ih =>
    rw [place]
    split
    · rename_i heq
      rw [filter_cons_of_neg (by simp [h]), filter_cons_of_neg (by simp [heq, h])]
    · rw [filter_cons, ih, filter_cons]

theorem mem_place (member : Member) (members : List Member) : member ∈ place member members := by
  induction members with
  | nil => exact mem_singleton_self _
  | cons entry members ih =>
    rw [place]
    split
    · exact mem_cons_self
    · exact mem_cons_of_mem _ ih

theorem mem_place_of_mem (h : m ∈ members) (hne : m.name ≠ member.name) :
    m ∈ place member members := by
  have hm : m ∈ (place member members).filter (fun e => e.name == m.name) := by
    rw [filter_place (P := (· == m.name)) (by simpa using Ne.symm hne)]
    exact mem_filter.2 ⟨h, by simp⟩
  exact (mem_filter.1 hm).1

/-- What comes into the list is there already or is the placed member. -/
theorem mem_of_mem_place (h : m ∈ place member members) : m = member ∨ m ∈ members := by
  induction members with
  | nil => exact .inl (mem_singleton.1 h)
  | cons entry members ih =>
    rw [place] at h
    split at h
    · exact (mem_cons.1 h).imp_right (mem_cons_of_mem _)
    rcases mem_cons.1 h with rfl | h
    · exact .inr mem_cons_self
    · exact (ih h).imp_right (mem_cons_of_mem _)

theorem name_mem_place (h : name ∈ members.map (·.name)) :
    name ∈ (place member members).map (·.name) := by
  obtain ⟨m, hm, rfl⟩ := mem_map.1 h
  by_cases hname : m.name = member.name
  · exact mem_map.2 ⟨member, mem_place _ _, hname.symm⟩
  · exact mem_map.2 ⟨m, mem_place_of_mem hm hname, rfl⟩

section
theorem placeFiles_cons (h : placeFiles fs members (file :: files) = .ok members') :
    (basename file).length + 1 ≤ 16 ∧ safeName (basename file) = true ∧
      ∃ data, fs file = some data ∧
        placeFiles fs (place ⟨basename file, data, 0o100644⟩ members) files = .ok members' := by
  rw [placeFiles] at h
  split at h
  · cases h
  rename_i hname
  simp only [not_or, Nat.not_lt, Bool.not_eq_true', Bool.not_eq_false] at hname
  split at h
  · cases h
  · rename_i data hdata
    exact ⟨hname.1, hname.2, data, hdata, h⟩

section
variable (h : placeFiles fs members files = .ok members')
include h

/-- The members under other names stay as they are, in their order. -/
theorem filter_placeFiles (hP : ∀ file ∈ files, P (basename file) = false) :
    members'.filter (P ·.name) = members.filter (P ·.name) := by
  induction files generalizing members with
  | nil =>
    cases h
    rfl
  | cons file files ih =>
    obtain ⟨_, _, data, _, h⟩ := placeFiles_cons h
    rw [ih h (forall_mem_cons.1 hP).2]
    exact filter_place (hP file mem_cons_self)

theorem mem_placeFiles_of_mem (hm : m ∈ members) (hne : ∀ file ∈ files, basename file ≠ m.name) :
    m ∈ members' := by
  have hmem : m ∈ members'.filter fun e => e.name == m.name := by
    rw [filter_placeFiles (P := (· == m.name)) h fun file hf => by simpa using hne file hf]
    exact mem_filter.2 ⟨hm, by simp⟩
  exact (mem_filter.1 hmem).1

theorem mem_of_mem_placeFiles (hm : m ∈ members') :
    m ∈ members ∨ ∃ file ∈ files, ∃ data, m = ⟨basename file, data, 0o100644⟩ := by
  induction files generalizing members with
  | nil =>
    cases h
    exact .inl hm
  | cons file files ih =>
    obtain ⟨_, _, data, _, h⟩ := placeFiles_cons h
    obtain hm | ⟨f, hf, hrest⟩ := ih h
    · rcases mem_of_mem_place hm with rfl | hm
      · exact .inr ⟨file, mem_cons_self, data, rfl⟩
      · exact .inl hm
    · exact .inr ⟨f, mem_cons_of_mem _ hf, hrest⟩

end

/-- A file is there with its contents, unless a later one has its base name. -/
theorem mem_placeFiles (h : placeFiles fs members (first ++ file :: rest) = .ok members')
    (hdata : fs file = some data) (hlast : ∀ g ∈ rest, basename g ≠ basename file) :
    (⟨basename file, data, 0o100644⟩ : Member) ∈ members' := by
  induction first generalizing members with
  | nil =>
    obtain ⟨_, _, data', hdata', h⟩ := placeFiles_cons h
    cases hdata.symm.trans hdata'
    exact mem_placeFiles_of_mem h (mem_place _ _) hlast
  | cons f first ih =>
    obtain ⟨_, _, _, _, h⟩ := placeFiles_cons h
    exact ih h

section
variable (h : placeFiles fs members files = .ok members')
include h

/-- Every named file has left a member of its base name. -/
theorem name_mem_placeFiles (hf : file ∈ files) : basename file ∈ members'.map (·.name) := by
  have hkeep : ∀ {files members name}, placeFiles fs members files = .ok members' →
      name ∈ members.map (·.name) → name ∈ members'.map (·.name) := by
    intro files
    induction files with
    | nil =>
      intro members name h hn
      cases h
      exact hn
    | cons f files ih =>
      intro members name h hn
      obtain ⟨_, _, _, _, h⟩ := placeFiles_cons h
      exact ih h (name_mem_place hn)
  induction files generalizing members with
  | nil => cases hf
  | cons f files ih =>
    obtain ⟨_, _, data, _, h⟩ := placeFiles_cons h
    rcases mem_cons.1 hf with rfl | hf
    · exact hkeep h (mem_map.2 ⟨_, mem_place _ _, rfl⟩)
    · exact ih h hf

theorem basename_of_placeFiles : ∀ file ∈ files, (basename file).length + 1 ≤ 16 := by
  induction files generalizing members with
  | nil =>
    intro file hf
    cases hf
  | cons f files ih =>
    obtain ⟨hlen, _, _, _, h⟩ := placeFiles_cons h
    exact forall_mem_cons.2 ⟨hlen, ih h⟩

end

/-- A change of the archive comes from members that could be placed and written. -/
theorem replaceMembers_cases (fs : Files) (archive : Bytes) (files : List Bytes) :
    (replaceMembers fs archive files).code ≠ 0 ∧ (replaceMembers fs archive files).files = fs ∨
    ∃ members bytes, placeFiles fs (loadArchive fs archive) files = .ok members ∧
      archiveBytes members = .ok bytes ∧ replaceMembers fs archive files =
        ⟨0, fun path => if path = archive then some (arMagic ++ bytes) else fs path, []⟩ := by
  unfold replaceMembers
  split
  · exact .inl ⟨one_ne_zero, rfl⟩
  cases hplace : placeFiles fs (loadArchive fs archive) files with
  | error message => exact .inl ⟨one_ne_zero, rfl⟩
  | ok members =>
    dsimp only
    cases hbytes : archiveBytes members with
    | error name => exact .inl ⟨one_ne_zero, rfl⟩
    | ok bytes => exact .inr ⟨members, bytes, rfl, hbytes, rfl⟩

end

theorem archiveEntries_append (bytes : Bytes) :
    archiveEntries (arMagic ++ bytes) = entries bytes := by
  rw [archiveEntries, if_neg (not_not.2 (prefix_append _ _)), drop_left]

end Ristux.Userland.Ar
