import Ristux.Linker.Rounds
import Ristux.Userland.Ar

-- `Layout` says which archives ar reads, `entries_layout` that it then has the members that the
-- linker's reader comes by, and `seen_objects` that the linker's objects are those members,
-- parsed.

variable {name payload : Bytes} {members : List Member}

namespace Ristux.Userland.Ar
open List Option Linker Nat UInt8
open Ristux.Linker (Bytes arMagic)
open Ristux.Lib

/-- The symbol table and the table of long names. -/
def Special (field : Bytes) : Prop :=
  trimAscii field = text "/" ∨ trimAscii field = text "//"

instance (field : Bytes) : Decidable (Special field) :=
  inferInstanceAs (Decidable (_ ∨ _))

/-- A name that stands in its field as a whole. -/
structure ShortName (field : Bytes) : Prop where
  notBsd : ¬ text "#1/" <+: trimAscii field
  safe : safeName (title field) = true

/-- A header with its two numbers, and the data it announces. -/
structure Header (bytes : Bytes) (mode size : ℕ) : Prop where
  length : headerLen ≤ bytes.length
  ended : (bytes.drop 58).take 2 = headerEnd
  modeField : parseNumber ((bytes.drop 40).take 8) 8 = some mode
  sizeField : parseNumber ((bytes.drop 48).take 10) 10 = some size
  inside : size ≤ (bytes.drop headerLen).length

/-- The bytes after a member. -/
def afterMember (bytes : Bytes) (size : ℕ) : Bytes := bytes.drop (headerLen + (size + size % 2))

/-- The bytes of an archive after its magic: members with short names and tables, and less than a
header after them. -/
inductive Layout : Bytes → List Member → Prop
  | done {bytes : Bytes} : bytes.length < headerLen → Layout bytes []
  | table {bytes : Bytes} {mode size : ℕ} {members : List Member} :
    Header bytes mode size → Special (bytes.take 16) → Layout (afterMember bytes size) members →
      Layout bytes members
  | member {bytes : Bytes} {mode size : ℕ} {members : List Member} :
    Header bytes mode size → ¬ Special (bytes.take 16) → ShortName (bytes.take 16) →
      Layout (afterMember bytes size) members →
      Layout bytes (⟨title (bytes.take 16), (bytes.drop headerLen).take size, mode⟩ :: members)

theorem take_header (bytes : Bytes) : (bytes.take headerLen).take 16 = bytes.take 16 := by
  rw [take_take]
  rfl

variable {bytes : Bytes}

theorem memberName_of_special (h : Special (bytes.take 16)) :
    memberName (bytes.take headerLen) = some [] := by
  rw [memberName, take_header]
  exact if_pos h

theorem memberName_of_short (h : ¬ Special (bytes.take 16)) (hs : ShortName (bytes.take 16)) :
    memberName (bytes.take headerLen) = some (title (bytes.take 16)) := by
  have hsafe := hs.safe
  rw [title] at hsafe
  rw [memberName, take_header]
  refine (if_neg h).trans ((if_neg hs.notBsd).trans ?_)
  rw [hsafe]
  rfl

theorem memberName_eq_some (h : memberName (bytes.take headerLen) = some name) :
    Special (bytes.take 16) ∧ name = [] ∨
      ¬ Special (bytes.take 16) ∧ ShortName (bytes.take 16) ∧ name = title (bytes.take 16) := by
  by_cases hspecial : Special (bytes.take 16)
  · rw [memberName_of_special hspecial] at h
    exact .inl ⟨hspecial, (some.inj h).symm⟩
  rw [memberName, take_header] at h
  replace h := (if_neg hspecial).symm.trans h
  split at h
  · cases h
  rename_i hbsd
  split at h
  · cases h
  rename_i hsafe
  have hshort : ShortName (bytes.take 16) := ⟨hbsd, by simpa [title] using hsafe⟩
  exact .inr ⟨hspecial, hshort, (some.inj h).symm⟩

theorem parseMembers_of_header {mode size : ℕ} (h : Header bytes mode size) :
    parseMembers bytes = (memberName (bytes.take headerLen)).bind fun name =>
      (parseMembers (afterMember bytes size)).bind fun members =>
        some (if name.isEmpty then members
          else ⟨name, (bytes.drop headerLen).take size, mode⟩ :: members) := by
  rw [parseMembers, dif_pos h.length, if_neg (not_not.2 h.ended)]
  simp only [h.modeField, h.sizeField, bind_eq_bind, bind_some,
    if_neg (not_lt.2 h.inside), afterMember]

theorem header_of_parseMembers (hlen : headerLen ≤ bytes.length)
    (h : parseMembers bytes = some members) : ∃ mode size, Header bytes mode size := by
  rw [parseMembers, dif_pos hlen] at h
  split at h
  · cases h
  rename_i hend
  obtain ⟨name, _, h⟩ := bind_eq_some_iff.1 h
  obtain ⟨mode, hmode, h⟩ := bind_eq_some_iff.1 h
  obtain ⟨size, hsize, h⟩ := bind_eq_some_iff.1 h
  by_cases hin : (bytes.drop headerLen).length < size
  · cases (if_pos hin).symm.trans h
  · exact ⟨mode, size, hlen, not_not.1 hend, hmode, hsize, not_lt.1 hin⟩

variable {size : ℕ}

theorem length_afterMember (h : headerLen ≤ bytes.length) :
    (afterMember bytes size).length < bytes.length := by
  simp only [afterMember, headerLen, length_drop] at *
  omega

theorem safeName_ne_nil (h : safeName name = true) : name.isEmpty = false := by
  simp only [safeName, Bool.and_eq_true, Bool.not_eq_true'] at h
  exact h.1.1.1.1

/-- ar reads an archive exactly when it is laid out so. -/
theorem parseMembers_iff (bytes : Bytes) (members : List Member) :
    parseMembers bytes = some members ↔ Layout bytes members := by
  constructor
  · intro h
    induction hn : bytes.length using Nat.strong_induction_on generalizing bytes members with
    | _ n ih =>
      by_cases hlen : headerLen ≤ bytes.length
      · obtain ⟨mode, size, hheader⟩ := header_of_parseMembers hlen h
        rw [parseMembers_of_header hheader] at h
        obtain ⟨name, hname, h⟩ := bind_eq_some_iff.1 h
        obtain ⟨rest, hrest, h⟩ := bind_eq_some_iff.1 h
        have hlayout := ih _ (hn ▸ length_afterMember hlen) _ _ hrest rfl
        obtain ⟨hspecial, rfl⟩ | ⟨hspecial, hshort, rfl⟩ := memberName_eq_some hname
        · cases h
          exact .table hheader hspecial hlayout
        rw [safeName_ne_nil hshort.safe] at h
        cases h
        exact .member hheader hspecial hshort hlayout
      · rw [parseMembers, dif_neg hlen] at h
        cases h
        exact .done (not_le.1 hlen)
  intro h
  induction h with
  | done hlen => rw [parseMembers, dif_neg (not_le.2 hlen)]
  | table hheader hspecial _ ih =>
    rw [parseMembers_of_header hheader, memberName_of_special hspecial, bind_some, ih]
    rfl
  | member hheader hspecial hshort _ ih =>
    rw [parseMembers_of_header hheader, memberName_of_short hspecial hshort, bind_some, ih,
      bind_some, safeName_ne_nil hshort.safe]
    rfl

theorem parseDecimal_eq_readDigits (bytes : Bytes) (value : ℕ) :
    bytes.foldlM Linker.pushDigit value = readDigits 10 value bytes := by
  induction bytes generalizing value with
  | nil => rfl
  | cons b bytes ih =>
    have hpush : Linker.pushDigit value b = if isAsciiDigit b = true ∧ (b - 0x30).toNat < 10 then
          pushDigit 10 value (b - 0x30).toNat else none := by
      by_cases hb : isAsciiDigit b = true
      · have hrange := (isAsciiDigit_iff b).1 hb
        have hle : (0x30 : UInt8) ≤ b := le_iff_toNat_le.2 hrange.1
        have hle' : b ≤ (0x39 : UInt8) := le_iff_toNat_le.2 hrange.2
        have hsub : (b - 0x30).toNat = b.toNat - 0x30 := UInt8.toNat_sub_of_le _ _ hle
        have hlt : b.toNat - 0x30 < 10 := by omega
        rw [if_pos ⟨hb, hsub ▸ hlt⟩, hsub, Linker.pushDigit, pushDigit]
        refine if_congr ?_ rfl rfl
        simp only [hle, hle', true_and, usizeMax, u64Max]
        omega
      rw [if_neg fun h => hb h.1, Linker.pushDigit, if_neg]
      intro h
      refine hb ((isAsciiDigit_iff b).2 ⟨?_, ?_⟩)
      · exact le_iff_toNat_le.1 h.1
      · exact le_iff_toNat_le.1 h.2.1
    rw [foldlM_cons, hpush, readDigits]
    split
    · simp only [bind_eq_bind, ih]
    · rfl

theorem trimAscii_trimAsciiSpace (bytes : Bytes) :
    trimAscii (trimAsciiSpace bytes) = trimAscii bytes := by
  refine trimBy_trimBy (fun b hb => ?_) bytes
  rw [eq_of_beq hb]
  rfl

/-- A size that the linker reads is read so by ar. -/
theorem parseNumber_of_parseDecimal {field : Bytes}
    (h : Linker.parseDecimal field = some n) : parseNumber field 10 = some n := by
  simp only [Linker.parseDecimal, ite_none_left_eq_some] at h
  obtain ⟨_, h⟩ := h
  rw [parseDecimal_eq_readDigits] at h
  have hdigits := isAsciiDigit_of_readDigits h
  rw [parseNumber, ← trimAscii_trimAsciiSpace, trimAscii,
    trimBy_eq_self fun b hb => isAsciiWhitespace_of_digit (hdigits b hb), h]

/-- What begins with text that does not end in whitespace still does when its end is trimmed. -/
theorem isPrefix_trimAscii (hx : x ≠ []) (hhead : ∀ b, x.head? = some b → isAsciiWhitespace b = false)
    (hlast : ∀ b, x.getLast? = some b → isAsciiWhitespace b = false) :
    x <+: trimAscii (x ++ rest) := by
  have hdrop : (x ++ rest).dropWhile isAsciiWhitespace = x ++ rest := by
    cases x with
    | nil => exact absurd rfl hx
    | cons b x => simp [hhead b rfl]
  have hrev : x.reverse.dropWhile isAsciiWhitespace = x.reverse := by
    cases hr : x.reverse with
    | nil => rfl
    | cons b r =>
      have hb : x.getLast? = some b := by rw [← head?_reverse, hr, head?_cons]
      simp [hlast b hb]
  rw [trimAscii, trimBy, hdrop, reverse_append, dropWhile_append]
  split
  · rw [hrev, reverse_reverse]
  · rw [reverse_append, reverse_reverse]
    exact prefix_append _ _

/-- The payload of a member with a short name is its data. -/
theorem payload_of_short {field data : Bytes} (h : ¬ text "#1/" <+: trimAscii field)
    (hp : archiveMemberPayload (trimAsciiSpace field) data = .ok payload) : payload = data := by
  rw [archiveMemberPayload] at hp
  split at hp
  · rename_i hbsd
    refine absurd ?_ h
    have hsplit : trimAsciiSpace field =
        text "#1/" ++ (trimAsciiSpace field).drop 3 := by
      conv_lhs => rw [← take_append_drop 3 (trimAsciiSpace field), hbsd]
      rfl
    rw [← trimAscii_trimAsciiSpace, hsplit]
    refine isPrefix_trimAscii (by decide) (fun b hb => ?_) fun b hb => ?_
    · rw [← some.inj hb]
      rfl
    · rw [← some.inj hb]
      rfl
  · exact (Except.ok.inj hp).symm

/-- One member as the linker's loop comes by it. -/
structure Entry (bytes : Bytes) (size : ℕ) (payload : Bytes) : Prop where
  length : headerLen ≤ bytes.length
  ended : (bytes.drop 58).take 2 = headerEnd
  sizeField : parseDecimal ((bytes.drop 48).take 10) = some size
  inside : size ≤ (bytes.drop headerLen).length
  payload : archiveMemberPayload (trimAsciiSpace (bytes.take 16))
    ((bytes.drop headerLen).take size) = .ok payload

theorem Entry.ne_nil (h : Entry bytes size payload) : bytes ≠ [] := by
  rintro rfl
  exact absurd h.length (by decide)

theorem entries_of_entry (h : Entry bytes size payload) :
    entries bytes = (entries (afterMember bytes size)).map ((bytes.take 16, payload) :: ·) := by
  rw [entries, if_neg h.ne_nil, dif_neg (not_lt.2 h.length), if_neg (not_not.2 h.ended)]
  simp only [h.sizeField, h.payload, bind_eq_bind, bind_some,
    if_neg (not_lt.2 h.inside), afterMember, map_eq_bind]
  rfl

theorem entry_of_entries (hne : bytes ≠ [])
    (h : entries bytes = some es) : ∃ size payload, Entry bytes size payload := by
  rw [entries, if_neg hne] at h
  split at h
  · cases h
  rename_i hlen
  split at h
  · cases h
  rename_i hend
  obtain ⟨size, hsize, h⟩ := bind_eq_some_iff.1 h
  by_cases hin : (bytes.drop headerLen).length < size
  · cases (if_pos hin).symm.trans h
  replace h := (if_neg hin).symm.trans h
  split at h
  · cases h
  · rename_i payload hpayload
    exact ⟨size, payload, not_lt.1 hlen, not_not.1 hend, hsize, not_lt.1 hin, hpayload⟩

/-- A member as it is known outside the archive. -/
def titled (e : Bytes × Bytes) : Bytes × Bytes := (title e.1, e.2)

/-- Where both readers read an archive, ar has the linker's members, the tables apart. -/
theorem entries_layout (h : Layout bytes members) : ∀ {es},
    entries bytes = some es → members.map (fun m => (m.name, m.data)) =
    (es.filter fun e => ¬ Special e.1).map titled := by
  have hsame : ∀ {bytes mode size}, Header bytes mode size → ∀ {es}, entries bytes = some es →
      ∃ payload rest, Entry bytes size payload ∧ entries (afterMember bytes size) = some rest ∧
        es = (bytes.take 16, payload) :: rest := by
    intro bytes mode size hheader es hes
    have hne : bytes ≠ [] := by
      rintro rfl
      exact absurd hheader.length (by decide)
    obtain ⟨size', payload, hentry⟩ := entry_of_entries hne hes
    have heq := parseNumber_of_parseDecimal hentry.sizeField
    rw [hheader.sizeField] at heq
    cases heq
    rw [entries_of_entry hentry, map_eq_some_iff] at hes
    obtain ⟨rest, hrest, rfl⟩ := hes
    exact ⟨payload, rest, hentry, hrest, rfl⟩
  induction h with
  | @done bytes hlen =>
    intro es hes
    by_cases hne : bytes = []
    · rw [entries, if_pos hne] at hes
      cases hes
      rfl
    · obtain ⟨_, _, hentry⟩ := entry_of_entries hne hes
      exact absurd hentry.length (not_le.2 hlen)
  | table hheader hspecial _ ih =>
    intro es hes
    obtain ⟨payload, rest, _, hrest, rfl⟩ := hsame hheader hes
    rw [ih hrest, filter_cons_of_neg (by simpa using hspecial)]
  | member hheader hspecial hshort _ ih =>
    intro es hes
    obtain ⟨payload, rest, hentry, hrest, rfl⟩ := hsame hheader hes
    rw [filter_cons_of_pos (by simpa using hspecial), map_cons, map_cons, ih hrest,
      payload_of_short hshort.notBsd hentry.payload]
    rfl

theorem field_eq_ok (h : field l offset n = some xs) :
    offset + n ≤ l.length ∧ (l.drop offset).take n = xs := by
  unfold field at h
  split at h
  · exact ⟨‹_›, some.inj h⟩
  · cases h

theorem slice_header (bytes : Bytes) (h : start + n ≤ headerLen) :
    ((bytes.take headerLen).drop start).take n = (bytes.drop start).take n := by
  rw [drop_take, take_take, min_eq_left (by omega)]

/-- One turn of the linker's loop. -/
theorem entry_of_parseArchiveMember {next : ℕ}
    (h : parseArchiveMember bytes offset = .ok (member, next)) : ∃ size payload,
    Entry (bytes.drop offset) size payload ∧ next = offset + (headerLen + (size + size % 2)) ∧
    (isElfObject payload = true → ∃ object, parseObject payload = .ok object ∧
      member = some object) ∧ (isElfObject payload = false → member = none) := by
  obtain ⟨header, hheader, h⟩ := Fallible.bind_eq_ok.1 h
  split at h
  · simp [fail] at h
  rename_i hend
  obtain ⟨size, hsize, h⟩ := Fallible.bind_eq_ok.1 h
  obtain ⟨stop, hstop, h⟩ := Fallible.bind_eq_ok.1 h
  obtain ⟨data, hdata, h⟩ := Fallible.bind_eq_ok.1 h
  obtain ⟨payload, hpayload, hlast⟩ := Fallible.bind_eq_ok.1 h
  obtain ⟨hin, rfl⟩ := field_eq_ok (okOr_eq_ok.1 hheader)
  obtain ⟨hin', rfl⟩ := field_eq_ok (okOr_eq_ok.1 hdata)
  obtain ⟨_, hended⟩ := field_eq_ok (not_not.1 hend)
  obtain ⟨_, rfl⟩ := checkedAdd_eq_ok.1 hstop
  have hsize := okOr_eq_ok.1 hsize
  rw [← drop_drop] at hpayload
  simp only [arHeaderSize] at hin hin' hended hsize hpayload hlast
  change (((bytes.drop offset).take headerLen).drop 58).take 2 = headerEnd at hended
  change parseDecimal ((((bytes.drop offset).take headerLen).drop 48).take 10) =
    some size at hsize
  change archiveMemberPayload (trimAsciiSpace
    (((bytes.drop offset).take headerLen).take 16)) _ = _ at hpayload
  rw [slice_header _ (by decide)] at hended hsize
  rw [take_header] at hpayload
  refine ⟨size, payload, ⟨?_, hended, hsize, ?_, hpayload⟩, ?_⟩
  · simp only [headerLen, length_drop]
    omega
  · simp only [headerLen, length_drop]
    omega
  split at hlast
  · rename_i helf
    obtain ⟨object, hobject, hlast⟩ := Fallible.bind_eq_ok.1 hlast
    cases hlast
    refine ⟨by simp only [headerLen]; omega, fun _ => ⟨object, hobject, rfl⟩, fun hnot => ?_⟩
    rw [helf] at hnot
    cases hnot
  · rename_i helf
    cases hlast
    refine ⟨by simp only [headerLen]; omega, fun hyes => absurd hyes helf, fun _ => rfl⟩

/-- The objects of the linker are those of the members it comes by. -/
theorem entries_of_parseArchiveFrom : ∀ {offset objects}, bytes.length < offset + fuel →
    parseArchiveFrom bytes fuel offset = .ok objects → ∃ es, entries (bytes.drop offset) = some es ∧
    (es.filter fun e => isElfObject e.2).mapM (fun e => parseObject e.2) = .ok objects := by
  induction fuel with
  | zero =>
    intro offset objects hlen h
    cases h
    refine ⟨[], ?_, rfl⟩
    rw [drop_eq_nil_of_le (by omega), entries, if_pos rfl]
  | succ fuel ih =>
    intro offset objects hlen h
    unfold parseArchiveFrom at h
    split at h
    · rename_i hlt
      obtain ⟨⟨member, next⟩, hmember, h⟩ := Fallible.bind_eq_ok.1 h
      obtain ⟨rest, hrest, h⟩ := Fallible.bind_eq_ok.1 h
      cases h
      obtain ⟨size, payload, hentry, rfl, helf, hnot⟩ := entry_of_parseArchiveMember hmember
      obtain ⟨es, hes, hobjects⟩ := ih (by simp only [headerLen]; omega) hrest
      refine ⟨((bytes.drop offset).take 16, payload) :: es, ?_, ?_⟩
      · rw [entries_of_entry hentry, afterMember, drop_drop, hes]
        rfl
      cases hp : isElfObject payload with
      | true =>
        obtain ⟨object, hobject, rfl⟩ := helf hp
        rw [filter_cons_of_pos (by simpa using hp), mapM_cons, hobjects]
        rw [hobject]
        rfl
      | false =>
        obtain rfl := hnot hp
        rw [filter_cons_of_neg (by simpa using hp)]
        exact hobjects
    · rename_i hge
      cases h
      refine ⟨[], ?_, rfl⟩
      rw [drop_eq_nil_of_le (by omega), entries, if_pos rfl]

/-- The objects that the linker takes from an archive are the members it sees, parsed. -/
theorem seen_objects
    (h : parseArchiveMembers bytes = .ok objects) : ∃ es, archiveEntries bytes = some es ∧
    seen bytes = es.filter (fun e => isElfObject e.2) ∧
    (seen bytes).mapM (fun e => parseObject e.2) = .ok objects := by
  have hseen : ∀ es, archiveEntries bytes = some es →
      seen bytes = es.filter fun e => isElfObject e.2 := by
    intro es hes
    rw [seen, h, hes]
  unfold parseArchiveMembers at h
  split at h
  · simp [fail] at h
  rename_i hmagic
  obtain ⟨members, hmembers, h⟩ := Fallible.bind_eq_ok.1 h
  split at h
  · simp [fail] at h
  cases h
  obtain ⟨_, htake⟩ := field_eq_ok (not_not.1 hmagic)
  obtain ⟨es, hes, hobjects⟩ := entries_of_parseArchiveFrom (by omega) hmembers
  have hentries : archiveEntries bytes = some es := by
    rw [archiveEntries, if_neg (not_not.2 (htake ▸ take_prefix _ _)), hes]
  exact ⟨es, hentries, hseen es hentries, by rw [hseen es hentries, hobjects]⟩

end Ristux.Userland.Ar
