import Ristux.Lib.Fields

-- `ristux_ld.rs`: the section headers and the symbols of a relocatable object file. Arithmetic on
-- `u64` and `usize` wraps around unless the source says otherwise.

namespace Ristux.Linker
open Lib List

abbrev Bytes := List UInt8

inductive LinkError where
  | message (text : String)
  | panicked
  deriving DecidableEq, Repr

abbrev R := Except LinkError

def fail {α : Type} (text : String) : R α := .error (.message text)

/-- `Option::ok_or`. -/
def okOr {α : Type} (o : Option α) (text : String) : R α :=
  match o with
  | some a => .ok a
  | none => fail text

def u64Max : ℕ := 2 ^ 64 - 1

def wrap (n : ℕ) : ℕ := n % 2 ^ 64

def saturatingAdd (a b : ℕ) : ℕ := min (a + b) u64Max

def checkedAdd (a b : ℕ) (text : String) : R ℕ :=
  if a + b ≤ u64Max then .ok (a + b) else fail text

def eiClass64 : UInt8 := 2
def eiDataLe : UInt8 := 1
def etRel : ℕ := 1
def etExec : ℕ := 2
def emX8664 : ℕ := 0x3e
def elfMagic : Bytes := [0x7f, 0x45, 0x4c, 0x46]

def shtProgbits : ℕ := 1
def shtSymtab : ℕ := 2
def shtStrtab : ℕ := 3
def shtRela : ℕ := 4
def shtNobits : ℕ := 8

def shfWrite : ℕ := 0x1
def shfAlloc : ℕ := 0x2
def shfExecinstr : ℕ := 0x4
def shnUndef : ℕ := 0
def shnAbs : ℕ := 0xfff1

def stbGlobal : ℕ := 1
def stbWeak : ℕ := 2

inductive SegmentKind where
  | text
  | rodata
  | data
  deriving DecidableEq, Repr

structure Section where
  typ : ℕ
  flags : ℕ
  offset : ℕ
  size : ℕ
  link : ℕ
  info : ℕ
  addralign : ℕ
  entsize : ℕ
  outAddr : ℕ
  segment : Option SegmentKind
  live : Bool
  deriving DecidableEq, Repr

structure Symbol where
  name : Bytes
  info : ℕ
  shndx : ℕ
  value : ℕ
  deriving DecidableEq, Repr

/-- The binding of a symbol, `info >> 4`. -/
def Symbol.bind (symbol : Symbol) : ℕ := symbol.info / 16

structure Object where
  bytes : Bytes
  sections : List Section
  symbols : List Symbol
  deriving DecidableEq, Repr

variable (bytes : Bytes)

def readField (offset n : ℕ) : R ℕ :=
  (okOr (field bytes offset n) "ristux-ld: truncated ELF field").map leNat

variable (offset : ℕ)

def readU16 : R ℕ := readField bytes offset 2
def readU32 : R ℕ := readField bytes offset 4
def readU64 : R ℕ := readField bytes offset 8

/-- `slice::chunks`. -/
def chunks (n : ℕ) (l : Bytes) : List Bytes :=
  (range ((l.length + n - 1) / n)).map fun i => (l.drop (i * n)).take n

def segmentFor (s : Section) : Option SegmentKind :=
  if s.flags &&& shfAlloc = 0 then none
  else if s.flags &&& shfExecinstr ≠ 0 then some .text
  else if s.flags &&& shfWrite ≠ 0 then some .data
  else some .rodata

def isLoadableSection (s : Section) : Bool :=
  (segmentFor s).isSome && (s.typ == shtProgbits || s.typ == shtNobits)

def sectionBytes (object : Object) (s : Section) : R Bytes :=
  if s.typ = shtNobits then .ok []
  else do
    let _ ← checkedAdd s.offset s.size "ristux-ld: section range overflow"
    okOr (field object.bytes s.offset s.size) "ristux-ld: section range outside input"

def parseSection (off : ℕ) : R Section := do
  let typ ← readU32 bytes (wrap (off + 4))
  let flags ← readU64 bytes (wrap (off + 8))
  let offset ← readU64 bytes (wrap (off + 24))
  let size ← readU64 bytes (wrap (off + 32))
  let link ← readU32 bytes (wrap (off + 40))
  let info ← readU32 bytes (wrap (off + 44))
  let addralign ← readU64 bytes (wrap (off + 48))
  let entsize ← readU64 bytes (wrap (off + 56))
  return ⟨typ, flags, offset, size, link, info, addralign, entsize, 0, none, false⟩

def parseSections (shoff shentsize shnum : ℕ) : R (List Section) :=
  (range shnum).mapM fun index => do
    let off ← checkedAdd shoff (index * shentsize) "ristux-ld: section table overflow"
    if bytes.length < wrap (off + 64) then fail "ristux-ld: section header outside input"
    else parseSection bytes off

def strtabGet : Bytes := (bytes.drop offset).takeWhile (· ≠ 0)

def parseSymbol (strings entry : Bytes) : Symbol where
  name := strtabGet strings (leNat (entry.take 4))
  info := (entry.getD 4 0).toNat
  shndx := leNat ((entry.drop 6).take 2)
  value := leNat ((entry.drop 8).take 8)

def parseSymbols (object : Object) (symtab : Section) : R Object := do
  let strtab ← okOr object.sections[symtab.link]? "ristux-ld: symbol string table missing"
  if strtab.typ ≠ shtStrtab then fail "ristux-ld: symbol string table is not SHT_STRTAB"
  else do
    let strings ← sectionBytes object strtab
    let data ← sectionBytes object symtab
    let entries := (chunks (max symtab.entsize 24) data).takeWhile (24 ≤ ·.length)
    return { object with symbols := object.symbols ++ entries.map (parseSymbol strings) }

def parseObject : R Object :=
  if bytes.length < 64 ∨ field bytes 0 4 ≠ some elfMagic then
    fail "ristux-ld: input is not an ELF object"
  else do
    let typ ← readU16 bytes 16
    let machine ← readU16 bytes 18
    if bytes.getD 4 0 ≠ eiClass64 ∨ bytes.getD 5 0 ≠ eiDataLe ∨ typ ≠ etRel ∨ machine ≠ emX8664 then
      fail "ristux-ld: expected ELF64 x86_64 ET_REL input"
    else do
      let shoff ← readU64 bytes 40
      let shentsize ← readU16 bytes 58
      let shnum ← readU16 bytes 60
      if shentsize < 64 then fail "ristux-ld: invalid section header size"
      else do
        let sections ← parseSections bytes shoff shentsize shnum
        (sections.filter (·.typ = shtSymtab)).foldlM parseSymbols ⟨bytes, sections, []⟩

def zeros (n : ℕ) : Bytes := replicate n 0

/-- Zeros up to a multiple of eight bytes. -/
def padToEight : Bytes := bytes ++ zeros ((8 - bytes.length % 8) % 8)

def shdr (name typ flags offset size link info addralign entsize : ℕ) : Bytes :=
  leBytes 4 name ++ leBytes 4 typ ++ leBytes 8 flags ++ zeros 8 ++ leBytes 8 offset ++
    leBytes 8 size ++ leBytes 4 link ++ leBytes 4 info ++ leBytes 8 addralign ++ leBytes 8 entsize

def symEntry (name info shndx value size : ℕ) : Bytes :=
  leBytes 4 name ++ leBytes 1 info ++ [0] ++ leBytes 2 shndx ++ leBytes 8 value ++ leBytes 8 size

def relaEntry (offset sym typ addend : ℕ) : Bytes :=
  leBytes 8 offset ++ leBytes 8 (sym * 2 ^ 32 + typ) ++ leBytes 8 addend

/-- The header of a relocatable object with its section headers at `shoff`. -/
def objectHeader (shoff shnum shstrndx : ℕ) : Bytes :=
  elfMagic ++ [eiClass64, eiDataLe, 1] ++ zeros 9 ++ leBytes 2 etRel ++ leBytes 2 emX8664 ++
    leBytes 4 1 ++ zeros 16 ++ leBytes 8 shoff ++ zeros 4 ++ leBytes 2 64 ++ zeros 4 ++
    leBytes 2 64 ++ leBytes 2 shnum ++ leBytes 2 shstrndx

def makeCrt0Object : Bytes :=
  let text : Bytes :=
    [0xe8, 0x00, 0x00, 0x00, 0x00, 0x89, 0xc7, 0xb8, 0x3c, 0x00, 0x00, 0x00, 0x0f, 0x05, 0xf4]
  -- "\0_start\0main\0"
  let strtab : Bytes :=
    [0x00, 0x5f, 0x73, 0x74, 0x61, 0x72, 0x74, 0x00, 0x6d, 0x61, 0x69, 0x6e, 0x00]
  -- "\0.text\0.rela.text\0.symtab\0.strtab\0.shstrtab\0"
  let shstr : Bytes :=
    [0x00, 0x2e, 0x74, 0x65, 0x78, 0x74, 0x00, 0x2e, 0x72, 0x65, 0x6c, 0x61, 0x2e, 0x74, 0x65,
      0x78, 0x74, 0x00, 0x2e, 0x73, 0x79, 0x6d, 0x74, 0x61, 0x62, 0x00, 0x2e, 0x73, 0x74, 0x72,
      0x74, 0x61, 0x62, 0x00, 0x2e, 0x73, 0x68, 0x73, 0x74, 0x72, 0x74, 0x61, 0x62, 0x00]
  let textOff := 64
  let withText := padToEight (zeros 64 ++ text)
  let relaOff := withText.length
  let withRela := withText ++ relaEntry 1 2 4 (2 ^ 64 - 4)
  let symtabOff := withRela.length
  let withSymtab :=
    withRela ++ zeros 24 ++ symEntry 1 0x12 1 0 text.length ++ symEntry 8 0x10 shnUndef 0 0
  let strtabOff := withSymtab.length
  let shstrOff := strtabOff + strtab.length
  let body := padToEight (withSymtab ++ strtab ++ shstr)
  let shoff := body.length
  objectHeader shoff 6 5 ++ body.drop 64 ++ zeros 64 ++
    shdr 1 shtProgbits (shfAlloc + shfExecinstr) textOff text.length 0 0 16 0 ++
    shdr 7 shtRela 0 relaOff 24 3 1 8 24 ++
    shdr 18 shtSymtab 0 symtabOff 72 4 1 8 24 ++
    shdr 26 shtStrtab 0 strtabOff strtab.length 0 0 1 0 ++
    shdr 34 shtStrtab 0 shstrOff shstr.length 0 0 1 0

example : (parseObject makeCrt0Object).toOption.map (fun o => (o.sections.length, o.symbols)) =
    some (6, [⟨[], 0, 0, 0⟩, ⟨[0x5f, 0x73, 0x74, 0x61, 0x72, 0x74], 0x12, 1, 0⟩,
      ⟨[0x6d, 0x61, 0x69, 0x6e], 0x10, 0, 0⟩]) := by
  decide +kernel

end Ristux.Linker
