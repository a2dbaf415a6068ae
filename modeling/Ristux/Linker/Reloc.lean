import Ristux.Linker.Layout

-- The value of a symbol, the table of global names, and the relocations that are applied to the
-- segments. Each applied relocation is recorded with the values that went into it.

namespace Ristux.Linker
open Lib

structure Global where
  name : Bytes
  value : ℕ
  weak : Bool
  deriving DecidableEq, Repr

variable (globals : List Global)

def lookupGlobal (name : Bytes) : Option ℕ :=
  (globals.find? (·.name = name)).map (·.value)

variable (add : ℕ → ℕ → ℕ)

/-- The value of a symbol, with `add` for the addition of a section's address. -/
def symbolValueWith (object : Object) (symbol : Symbol)
    (globals : List Global) : R ℕ :=
  if symbol.shndx = shnAbs then .ok symbol.value
  else if symbol.shndx = shnUndef ∧ symbol.bind = stbWeak then .ok 0
  else if symbol.shndx ≠ shnUndef then do
    let s ← okOr object.sections[symbol.shndx]? "ristux-ld: symbol section index outside object"
    return if s.segment.isNone then symbol.value else add s.outAddr symbol.value
  else okOr (lookupGlobal globals symbol.name) "ristux-ld: undefined symbol"

def symbolValue : Object → Symbol → List Global → R ℕ := symbolValueWith saturatingAdd

/-- Enter a definition into the table: a strong one replaces a weak one, the first of two weak
ones stays, and two strong ones are an error. -/
def addGlobal (name : Bytes) (value : ℕ) (weak : Bool) :
    R (List Global) :=
  match globals.find? (·.name = name) with
  | none => .ok (globals ++ [⟨name, value, weak⟩])
  | some existing =>
    if existing.weak && !weak then
      .ok (globals.map fun g => if g.name = name then ⟨name, value, false⟩ else g)
    else if !existing.weak && !weak then fail "ristux-ld: duplicate global symbol"
    else .ok globals

/-- Whether a definition is part of the image: it is absolute, or its section is live. -/
def isLinked (object : Object) (symbol : Symbol) : R Bool :=
  if symbol.shndx = shnAbs then .ok true
  else (okOr object.sections[symbol.shndx]?
    "ristux-ld: symbol section index outside object").map (·.live)

def collectSymbolWith (globals : List Global) (entry : Object × Symbol) :
    R (List Global) :=
  let (object, symbol) := entry
  if !symbolIsDefinition symbol then .ok globals
  else do
    let linked ← isLinked object symbol
    if !linked then return globals
    else do
      let value ← symbolValueWith add object symbol []
      addGlobal globals symbol.name value (symbol.bind == stbWeak)

variable (objects : List Object)

/-- The symbols of all objects, in the order in which the linker goes through them. -/
def allSymbols : List (Object × Symbol) :=
  objects.flatMap fun object => object.symbols.map fun symbol => (object, symbol)

def collectGlobalsWith : R (List Global) :=
  (allSymbols objects).foldlM (collectSymbolWith add) []

def collectGlobals : List Object → R (List Global) := collectGlobalsWith saturatingAdd

def findEntry (entryName : Bytes) : R ℕ :=
  okOr (lookupGlobal globals entryName) "ristux-ld: entry symbol not found"

def undefinedIn (known : List Bytes) (object : Object) (s : Section) : R (List Bytes) :=
  if s.typ ≠ shtRela then .ok []
  else do
    let target ← okOr object.sections[s.info]? "ristux-ld: relocation target section missing"
    if target.segment.isSome then missingNames object s known else return []

def reportUndefinedSymbols (globals : List Global) : R Unit := do
  let names ← objects.mapM fun object =>
    object.sections.mapM (undefinedIn (globals.map (·.name)) object)
  if names.flatten.flatten.isEmpty then return ()
  else fail "ristux-ld: undefined symbols"

variable (segments : List Segment)

def ensureDataSegment : List Segment :=
  if segments.any (·.kind == .data) then segments
  else
    let vaddr := segments.foldl (fun vaddr s => max vaddr (saturatingAdd s.vaddr s.bytes.length))
      base
    segments ++ [⟨.data, align vaddr page, pfR + pfW, []⟩]

def updateSegment (kind : SegmentKind) (f : Segment → Segment) :
    List Segment :=
  match segments.findIdx? (·.kind = kind) with
  | some index => segments.modify index f
  | none => segments

def findSegment (kind : SegmentKind) : Option Segment :=
  segments.find? (·.kind = kind)

/-- The segment's bytes with an entry of the global offset table at their end. -/
def gotBytes (bytes : Bytes) (value : ℕ) : Bytes :=
  bytes ++ zeros (align bytes.length 8 - bytes.length) ++ leBytes 8 value

def appendStaticGotEntry (value : ℕ) : List Segment × ℕ :=
  let segments := ensureDataSegment segments
  match findSegment segments .data with
  | none => (segments, 0)
  | some s =>
    (updateSegment segments .data fun s => { s with bytes := gotBytes s.bytes value },
      saturatingAdd s.vaddr (align s.bytes.length 8))

/-- The address of the next entry of the global offset table, without a limit. -/
def gotSlot : ℕ :=
  match findSegment (ensureDataSegment segments) .data with
  | none => 0
  | some s => s.vaddr + align s.bytes.length 8

def rX866464 : ℕ := 1
def rX8664Pc32 : ℕ := 2
def rX8664Plt32 : ℕ := 4
def rX8664Gotpcrel : ℕ := 9
def rX866432 : ℕ := 10
def rX866432s : ℕ := 11

/-- An applied relocation: the base `S` (or `G`), the addend `A`, the place `P`, and where in which
segment the value was stored. The entry of the global offset table is at `slot`, which the linker
limits to 64 bits. -/
structure Applied where
  typ : ℕ
  object : Object
  target : Section
  symbol : Symbol
  symbolValue : ℕ
  slot : ℕ
  relocBase : ℕ
  addend : ℤ
  rOffset : ℕ
  place : ℕ
  kind : SegmentKind
  patch : ℕ
  stored : Bytes

def toSigned64 (n : ℕ) : ℤ := if n < 2 ^ 63 then n else (n : ℤ) - 2 ^ 64

/-- The bytes of the value, cut to the width of the field. -/
def storedBytes (typ : ℕ) (value : ℤ) : Bytes :=
  if typ = rX866464 then leBytes 8 (value % 2 ^ 64).toNat else leBytes 4 (value % 2 ^ 32).toNat

def relocValue (typ relocBase place : ℕ) (addend : ℤ) : R ℤ :=
  if typ = rX866464 then .ok (relocBase + addend)
  else if typ = rX8664Pc32 ∨ typ = rX8664Plt32 ∨ typ = rX8664Gotpcrel then
    .ok (relocBase + addend - place)
  else if typ = rX866432 ∨ typ = rX866432s then .ok (relocBase + addend)
  else fail "ristux-ld: unsupported relocation type"

/-- The segments and the relocations applied so far, in reverse. -/
structure RelocState where
  segments : List Segment
  applied : List Applied

def applyRelocation (object : Object) (target : Section)
    (kind : SegmentKind) (state : RelocState) (rela : Bytes) : R RelocState :=
  let rOffset := leNat (rela.take 8)
  let addend := toSigned64 (leNat ((rela.drop 16).take 8))
  let typ := relocType rela
  if typ = rX8664None then .ok state
  else do
    let symbol ← okOr object.symbols[relocSym rela]?
      "ristux-ld: relocation symbol index outside symtab"
    let s ← symbolValue object symbol globals
    let (segments, relocBase) :=
      if typ = rX8664Gotpcrel then appendStaticGotEntry state.segments s
      else (state.segments, s)
    let place := saturatingAdd target.outAddr rOffset
    let value ← relocValue typ relocBase place addend
    let segment ← okOr (findSegment segments kind) "ristux-ld: relocation output segment missing"
    let patch := wrap (target.outAddr - segment.vaddr + rOffset)
    let stored := storedBytes typ value
    if patch + stored.length ≤ segment.bytes.length then
      return {
        segments := updateSegment segments kind fun s =>
          { s with bytes := splice s.bytes patch stored }
        applied :=
          ⟨typ, object, target, symbol, s, gotSlot state.segments, relocBase, addend, rOffset, place,
            kind, patch, stored⟩ :: state.applied }
    else fail "ristux-ld: relocation patch outside segment"

def applySection (state : RelocState) (entry : Object × Section) :
    R RelocState :=
  let (object, s) := entry
  if s.typ ≠ shtRela then .ok state
  else do
    let target ← okOr object.sections[s.info]? "ristux-ld: relocation target section missing"
    match target.segment with
    | none => return state
    | some kind => do
      let entries ← relaEntries object s 24
      entries.foldlM (applyRelocation globals object target kind) state

def applyRelocations (globals : List Global) (segments : List Segment) :
    R RelocState :=
  (objectSections objects).foldlM (applySection globals) ⟨segments, []⟩

end Ristux.Linker
