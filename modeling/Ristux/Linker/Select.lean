import Ristux.Linker.Elf

-- Every object file on the command line is linked. A member of an archive is linked when it
-- defines a name that the objects linked so far need.

namespace Ristux.Linker
open Lib

def rX8664None : ℕ := 0

def arMagic : Bytes := [0x21, 0x3c, 0x61, 0x72, 0x63, 0x68, 0x3e, 0x0a]
def arHeaderSize : ℕ := 60
def space : UInt8 := 0x20

variable (bytes : Bytes)

def isElfObject : Bool := field bytes 0 4 == some elfMagic

def trimAsciiSpace : Bytes :=
  ((bytes.dropWhile (· == space)).reverse.dropWhile (· == space)).reverse

/-- One more decimal digit, unless the number leaves `usize`. -/
def pushDigit (value : ℕ) (byte : UInt8) : Option ℕ :=
  if 0x30 ≤ byte ∧ byte ≤ 0x39 ∧ value * 10 + (byte.toNat - 0x30) ≤ u64Max then
    some (value * 10 + (byte.toNat - 0x30))
  else none

def parseDecimal : Option ℕ :=
  let bytes := trimAsciiSpace bytes
  if bytes.isEmpty then none else bytes.foldlM pushDigit 0

def archiveMemberPayload (name data : Bytes) : R Bytes :=
  if name.take 3 = [0x23, 0x31, 0x2f] then do
    let nameLen ← okOr (parseDecimal (name.drop 3)) "ristux-ld: invalid BSD archive name length"
    if nameLen ≤ data.length then return data.drop nameLen
    else fail "ristux-ld: archive member name exceeds payload"
  else .ok data

/-- One member at `offset`: its object, if it is one, and the offset of the next member. -/
def parseArchiveMember (offset : ℕ) : R (Option Object × ℕ) := do
  let header ← okOr (field bytes offset arHeaderSize) "ristux-ld: truncated archive member header"
  if field header 58 2 ≠ some [0x60, 0x0a] then fail "ristux-ld: invalid archive member header"
  else do
    let name := trimAsciiSpace (header.take 16)
    let size ← okOr (parseDecimal ((header.drop 48).take 10))
      "ristux-ld: invalid archive member size"
    let offset := offset + arHeaderSize
    let stop ← checkedAdd offset size "ristux-ld: archive member size overflow"
    let data ← okOr (field bytes offset size) "ristux-ld: archive member outside input"
    let payload ← archiveMemberPayload name data
    if isElfObject payload then do
      let object ← parseObject payload
      return (some object, stop + size % 2)
    else return (none, stop + size % 2)

/-- The members from `offset` on. Each one is longer than its header, so the length of the archive
bounds their number. -/
def parseArchiveFrom (bytes : Bytes) : ℕ → ℕ → R (List Object)
  | 0, _ => .ok []
  | fuel + 1, offset =>
    if offset < bytes.length then do
      let (object, next) ← parseArchiveMember bytes offset
      let rest ← parseArchiveFrom bytes fuel next
      return object.toList ++ rest
    else .ok []

def parseArchiveMembers : R (List Object) :=
  if field bytes 0 arMagic.length ≠ some arMagic then fail "ristux-ld: input is not an archive"
  else do
    let members ← parseArchiveFrom bytes (bytes.length + 1) arMagic.length
    if members.isEmpty then fail "ristux-ld: archive contains no ELF64 object members"
    else return members

def symbolIsDefinition (symbol : Symbol) : Bool :=
  !symbol.name.isEmpty && symbol.shndx != shnUndef &&
    (symbol.bind == stbGlobal || symbol.bind == stbWeak)

def symbolIsStrongUndefined (symbol : Symbol) : Bool :=
  !symbol.name.isEmpty && symbol.shndx == shnUndef && symbol.bind != stbWeak

variable (objects : List Object)

def hasDefinedSymbol (name : Bytes) : Bool :=
  objects.any fun object =>
    object.symbols.any fun symbol => symbol.name == name && symbol.shndx != shnUndef

def collectDefinedNames : List Bytes :=
  objects.flatMap fun object => (object.symbols.filter symbolIsDefinition).map (·.name)

variable (object : Object)

def objectDefinesAny (names : List Bytes) : Bool :=
  object.symbols.any fun symbol => symbolIsDefinition symbol && names.contains symbol.name

/-- The type and the symbol of a relocation entry. -/
def relocType (rela : Bytes) : ℕ := leNat ((rela.drop 8).take 8) % 2 ^ 32
def relocSym (rela : Bytes) : ℕ := leNat ((rela.drop 8).take 8) / 2 ^ 32

variable (s : Section)

/-- The entries of a relocation section that have at least `n` bytes, up to the first that has
not. -/
def relaEntries (n : ℕ) : R (List Bytes) :=
  (sectionBytes object s).map fun data =>
    (chunks (max s.entsize 24) data).takeWhile (n ≤ ·.length)

/-- The symbols of the relocations in a section, those without effect left out. -/
def relocSymbols : R (List Symbol) := do
  let entries ← relaEntries object s 16
  (entries.filter (relocType · ≠ rX8664None)).mapM fun rela =>
    okOr object.symbols[relocSym rela]? "ristux-ld: relocation symbol index outside symtab"

/-- The names that a section's relocations need and that are not among `known`. -/
def missingNames (known : List Bytes) : R (List Bytes) :=
  (relocSymbols object s).map fun symbols =>
    (symbols.filter fun symbol =>
      symbolIsStrongUndefined symbol && !known.contains symbol.name).map (·.name)

def unresolvedIn (defined : List Bytes) (object : Object) (s : Section) : R (List Bytes) :=
  if s.typ ≠ shtRela then .ok []
  else do
    let target ← okOr object.sections[s.info]? "ristux-ld: relocation target section missing"
    if isLoadableSection target then missingNames object s defined else return []

def collectUnresolvedNames (defined roots : List Bytes) :
    R (List Bytes) := do
  let names ← objects.mapM fun object => object.sections.mapM (unresolvedIn defined object)
  return (roots.filter fun root => !defined.contains root) ++ names.flatten.flatten

def startName : Bytes := [0x5f, 0x73, 0x74, 0x61, 0x72, 0x74]
def mainName : Bytes := [0x6d, 0x61, 0x69, 0x6e]

/-- Add the members that define a missing name, until there is none. Each round but the last one
adds a member, so their number bounds the rounds. -/
def selectLoop (roots : List Bytes) : ℕ → List Object → List Object → R (List Object)
  | 0, objects, _ => .ok objects
  | fuel + 1, objects, members => do
    let unresolved ← collectUnresolvedNames objects (collectDefinedNames objects) roots
    let needed := members.filter (objectDefinesAny · unresolved)
    let others := members.filter fun member => !objectDefinesAny member unresolved
    if needed.isEmpty then return objects
    else selectLoop roots fuel (objects ++ needed) others

def selectLinkObjects (inputs : List Bytes) (entryName : Bytes) : R (List Object) := do
  let parsed ← inputs.mapM fun input =>
    if field input 0 arMagic.length = some arMagic then
      (parseArchiveMembers input).map fun members => (([] : List Object), members)
    else (parseObject input).map fun object => ([object], [])
  let objects := parsed.flatMap (·.1)
  let members := parsed.flatMap (·.2)
  if objects.isEmpty && members.isEmpty then fail "ristux-ld: no linkable object inputs"
  else do
    let roots := if entryName = startName then [entryName, mainName] else [entryName]
    let objects ← selectLoop roots (members.length + 1) objects members
    if objects.isEmpty then fail "ristux-ld: no linkable object inputs"
    else return objects

end Ristux.Linker
