import Ristux.Linker.Select

-- A section is live if the entry symbol is in it or a relocation of a live section refers to it.

namespace Ristux.Linker
open Lib

/-- The place of a section: the index of its object and its own index there. -/
abbrev Place := ℕ × ℕ

variable (objects : List Object)

def sectionAt (place : Place) : Option Section :=
  objects[place.1]?.bind fun object => object.sections[place.2]?

def Object.setLive (object : Object) (index : ℕ) : Object :=
  { object with sections := object.sections.modify index fun s => { s with live := true } }

def setLive (objects : List Object) (place : Place) : List Object :=
  objects.modify place.1 fun object => object.setLive place.2

/-- Mark a section and put it on the work list, if it is loadable and not marked yet. -/
def markSection (place : Place) (work : List Place) :
    List Object × List Place :=
  match sectionAt objects place with
  | none => (objects, work)
  | some s =>
    if !isLoadableSection s || s.live then (objects, work)
    else (setLive objects place, place :: work)

/-- Where a name is defined: the place of the section, and whether the definition is strong. -/
structure Definition where
  place : Place
  strong : Bool
  deriving DecidableEq, Repr

abbrev Definitions := List (Bytes × Definition)

variable (definitions : Definitions) (name : Bytes)

def Definitions.get : Option Definition :=
  definitions.lookup name

/-- Keep the first strong definition, or else the first weak one. -/
def Definitions.insert (d : Definition) :
    Definitions :=
  match definitions.get name with
  | some existing =>
    if existing.strong || !d.strong then definitions else (name, d) :: definitions
  | none => (name, d) :: definitions

/-- The definition that a symbol gives, if it is in a loadable section. -/
def definitionOf (objectIndex : ℕ) (object : Object) (symbol : Symbol) : Option Definition :=
  if !symbolIsDefinition symbol || symbol.shndx == shnAbs then none
  else
    match object.sections[symbol.shndx]? with
    | none => none
    | some s =>
      if isLoadableSection s then
        some ⟨(objectIndex, symbol.shndx), symbol.bind == stbGlobal⟩
      else none

def collectDefinedSymbolSections (objects : List Object) : Definitions :=
  objects.zipIdx.foldl (fun definitions (object, objectIndex) =>
    object.symbols.foldl (fun definitions symbol =>
      match definitionOf objectIndex object symbol with
      | some d => definitions.insert symbol.name d
      | none => definitions) definitions) []

def markSymbolByName
    (state : List Object × List Place) : List Object × List Place :=
  match definitions.get name with
  | some d => markSection state.1 d.place state.2
  | none => state

def markRelocationTarget (objectIndex : ℕ)
    (state : List Object × List Place) (symbolIndex : ℕ) : R (List Object × List Place) := do
  let symbol ← okOr (state.1[objectIndex]?.bind fun object => object.symbols[symbolIndex]?)
    "ristux-ld: relocation symbol index outside symtab"
  if symbol.shndx = shnAbs then return state
  else if symbol.shndx ≠ shnUndef then
    return markSection state.1 (objectIndex, symbol.shndx) state.2
  else if symbol.bind = stbWeak then return state
  else return markSymbolByName definitions symbol.name state

/-- The symbol indices of the relocations of the section with this index. -/
def sectionRelocSyms (object : Object) (index : ℕ) : R (List ℕ) := do
  let entries ← (object.sections.filter fun s => s.typ == shtRela && s.info == index).mapM
    fun s => relaEntries object s 16
  return (entries.flatten.filter (relocType · ≠ rX8664None)).map relocSym

/-- One section taken from the work list. -/
def markStep (objects : List Object) (place : Place)
    (work : List Place) : R (List Object × List Place) := do
  let object ← okOr objects[place.1]? "ristux-ld: live object index outside input"
  let symbols ← sectionRelocSyms object place.2
  symbols.foldlM (markRelocationTarget definitions place.1) (objects, work)

/-- The work list, last section first. A section is put on it once, when it is marked, so the
number of sections bounds the rounds. -/
def markLoop (definitions : Definitions) : ℕ → List Object → List Place → R (List Object)
  | _, objects, [] => .ok objects
  | 0, objects, _ :: _ => .ok objects
  | fuel + 1, objects, place :: work => do
    let (objects, work) ← markStep definitions objects place work
    markLoop definitions fuel objects work

def sectionCount : ℕ := (objects.map (·.sections.length)).sum

def markLiveSections (objects : List Object) (entryName : Bytes) : R (List Object) :=
  let definitions := collectDefinedSymbolSections objects
  let state := markSymbolByName definitions entryName (objects, [])
  markLoop definitions (sectionCount objects) state.1 state.2

end Ristux.Linker
