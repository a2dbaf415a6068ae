import Ristux.Linker.Select
import Ristux.Userland.Basic

-- `parse_archive`, `write_archive` and `replace_members` of `userland/src/bin/ar.rs`. The offset
-- into the archive is kept as the bytes from there on.

namespace Ristux.Userland.Ar
open List Linker
open Ristux.Linker (Bytes arMagic)

def headerLen : ℕ := 60

structure Member where
  name : Bytes
  data : Bytes
  mode : ℕ
  deriving DecidableEq, Repr

def parseNumber (field : Bytes) (base : ℕ) : Option ℕ := readDigits base 0 (trimAscii field)

variable (name : Bytes)

def safeName : Bool :=
  !name.isEmpty && name != text "." && name != text ".." && !name.contains slash &&
    !name.contains 0

/-- `if name.ends_with(b"/") { name = &name[..name.len() - 1]; }`. -/
def stripSlash : Bytes :=
  if name.getLast? = some slash then name.dropLast else name

def memberName (header : Bytes) : Option Bytes :=
  let name := trimAscii (header.take 16)
  if name = text "/" ∨ name = text "//" then some []
  else if text "#1/" <+: name then none
  else if !safeName (stripSlash name) then none
  else some (stripSlash name)

def basename (path : Bytes) : Bytes := (path.reverse.takeWhile (· ≠ slash)).reverse

/-- The bytes of a header that end it. -/
def headerEnd : Bytes := [0x60, 0x0a]

/-- The loop of `parse_archive` on the bytes from `offset` on. -/
def parseMembers (bytes : Bytes) : Option (List Member) :=
  if _h : headerLen ≤ bytes.length then
    if (bytes.drop 58).take 2 ≠ headerEnd then none
    else do
      let name ← memberName (bytes.take headerLen)
      let mode ← parseNumber ((bytes.drop 40).take 8) 8
      let size ← parseNumber ((bytes.drop 48).take 10) 10
      let body := bytes.drop headerLen
      if body.length < size then none
      else
        let members ← parseMembers (bytes.drop (headerLen + (size + size % 2)))
        some (if name.isEmpty then members else ⟨name, body.take size, mode⟩ :: members)
  else some []
termination_by bytes.length
decreasing_by
  simp only [headerLen, length_drop] at *
  omega

variable (bytes : Bytes)

def parseArchive : Option (List Member) :=
  if ¬ arMagic <+: bytes then none else parseMembers (bytes.drop arMagic.length)

def writeField (width : ℕ) (value : Bytes) : Option Bytes :=
  if width < value.length then none
  else some (value ++ replicate (width - value.length) space)

def writeUsizeField (width value base : ℕ) : Option Bytes := writeField width (digits base value)

/-- What `append_member` adds to the archive. -/
def appendMember (member : Member) : Option Bytes :=
  if 16 < member.name.length + 1 ∨ !safeName member.name then none
  else do
    let name ← writeField 16 (member.name ++ [slash])
    let date ← writeUsizeField 12 0 10
    let uid ← writeUsizeField 6 0 10
    let gid ← writeUsizeField 6 0 10
    let mode ← writeUsizeField 8 member.mode 8
    let size ← writeUsizeField 10 member.data.length 10
    some (name ++ date ++ uid ++ gid ++ mode ++ size ++ headerEnd ++ member.data ++
      if member.data.length % 2 ≠ 0 then [newline] else [])

def archiveBytes : List Member → Except Bytes Bytes
  | [] => .ok []
  | member :: members =>
    match appendMember member with
    | none => .error member.name
    | some bytes => (archiveBytes members).map (bytes ++ ·)

/-- Files by their paths. -/
abbrev Files := Bytes → Option Bytes

structure Outcome where
  code : ℤ
  files : Files
  errors : List (Bytes × Bytes)

def loadArchive (fs : Files) (path : Bytes) : List Member :=
  ((fs path).bind parseArchive).getD []

/-- Replace the first entry of the member's name, or push the member. -/
def place (member : Member) : List Member → List Member
  | [] => [member]
  | entry :: members =>
    if entry.name = member.name then member :: members else entry :: place member members

/-- The loop of `replace_members` over the files. -/
def placeFiles (fs : Files) : List Member → List Bytes → Except (Bytes × Bytes) (List Member)
  | members, [] => .ok members
  | members, file :: files =>
    let name := basename file
    if 16 < name.length + 1 ∨ !safeName name then .error (text "unsupported member name ", name)
    else
      match fs file with
      | none => .error (text "cannot read ", file)
      | some data => placeFiles fs (place ⟨name, data, 0o100644⟩ members) files

def replaceMembers (fs : Files) (archive : Bytes) (files : List Bytes) : Outcome :=
  if files.isEmpty then ⟨1, fs, [(text "no input files", [])]⟩
  else
    match placeFiles fs (loadArchive fs archive) files with
    | .error message => ⟨1, fs, [message]⟩
    | .ok members =>
      match archiveBytes members with
      | .error name =>
        ⟨1, fs, [(text "unsupported member name ", name), (text "cannot write ", archive)]⟩
      | .ok bytes =>
        ⟨0, fun path => if path = archive then some (arMagic ++ bytes) else fs path, []⟩

/-- The members that the loop of `parse_archive_members` of the linker comes by, each with its name
field and its payload. -/
def entries (bytes : Bytes) : Option (List (Bytes × Bytes)) :=
  if bytes = [] then some []
  else if _h : bytes.length < headerLen then none
  else if (bytes.drop 58).take 2 ≠ headerEnd then none
  else do
    let size ← parseDecimal ((bytes.drop 48).take 10)
    let body := bytes.drop headerLen
    if body.length < size then none
    else
      match archiveMemberPayload (trimAsciiSpace (bytes.take 16)) (body.take size) with
      | .error _ => none
      | .ok payload =>
        let rest ← entries (bytes.drop (headerLen + (size + size % 2)))
        some ((bytes.take 16, payload) :: rest)
termination_by bytes.length
decreasing_by
  simp only [headerLen, length_drop] at *
  omega

def archiveEntries : Option (List (Bytes × Bytes)) :=
  if ¬ arMagic <+: bytes then none else entries (bytes.drop arMagic.length)

/-- The members the linker takes from an archive: the objects, if it can read the archive. -/
def seen : List (Bytes × Bytes) :=
  match parseArchiveMembers bytes, archiveEntries bytes with
  | .ok _, some es => es.filter fun e => isElfObject e.2
  | _, _ => []

/-- The name a name field holds. -/
def title (field : Bytes) : Bytes := stripSlash (trimAscii field)

/-- The name field under which a file is stored. -/
def nameField : Bytes :=
  name ++ [slash] ++ replicate (16 - (name ++ [slash]).length) space

end Ristux.Userland.Ar
