import Ristux.Linker.Reloc

-- `link_objects` from the input files to the bytes of the executable, and `for_each_load_segment`
-- of the kernel, which reads the executable.

namespace Ristux.Linker
open Lib

def ptLoad : ℕ := 1

/-- The file offsets of the segments, and the length of the file. -/
def fileOffsets : ℕ → List Segment → List ℕ × ℕ
  | offset, [] => ([], offset)
  | offset, s :: rest =>
    let offset := align offset page
    let (offsets, length) := fileOffsets (saturatingAdd offset s.bytes.length) rest
    (offset :: offsets, length)

def headersEnd (phnum : ℕ) : ℕ := align (64 + phnum * 56) page

def fileHeader (entry phnum : ℕ) : Bytes :=
  elfMagic ++ [eiClass64, eiDataLe, 1, 0] ++ zeros 8 ++ leBytes 2 etExec ++ leBytes 2 emX8664 ++
    leBytes 4 1 ++ leBytes 8 entry ++ leBytes 8 64 ++ leBytes 8 0 ++ leBytes 4 0 ++ leBytes 2 64 ++
    leBytes 2 56 ++ leBytes 2 phnum ++ leBytes 2 0 ++ leBytes 2 0 ++ leBytes 2 0

def programHeader (s : Segment) (offset : ℕ) : Bytes :=
  leBytes 4 ptLoad ++ leBytes 4 s.flags ++ leBytes 8 offset ++ leBytes 8 s.vaddr ++
    leBytes 8 s.vaddr ++ leBytes 8 s.bytes.length ++ leBytes 8 s.bytes.length ++ leBytes 8 page

/-- Write the header of the segment with this index, and its bytes. -/
def writeSegment (out : Bytes) (entry : (Segment × ℕ) × ℕ) : Bytes :=
  let ((s, offset), index) := entry
  splice (splice out (64 + index * 56) (programHeader s offset)) offset s.bytes

def writeElf (segments : List Segment) (entry : ℕ) : Bytes :=
  let (offsets, length) := fileOffsets (headersEnd segments.length) segments
  let out := splice (zeros length) 0 (fileHeader entry segments.length)
  (segments.zip offsets).zipIdx.foldl writeSegment out

/-- What the linker has before it writes the file. -/
structure Linked where
  objects : List Object
  globals : List Global
  entry : ℕ
  segments : List Segment
  applied : List Applied

variable (inputs : List Bytes) (entryName : Bytes)

def linkedObjects : R (List Object) := do
  let objects ← selectLinkObjects inputs entryName
  if entryName = startName ∧ hasDefinedSymbol objects startName = false ∧
      hasDefinedSymbol objects mainName = true then do
    let crt0 ← parseObject makeCrt0Object
    return objects ++ [crt0]
  else return objects

def linkSelected (objects : List Object) (entryName : Bytes) : R Linked := do
  let objects ← markLiveSections objects entryName
  let objects := layoutSections objects
  let globals ← collectGlobals objects
  let entry ← findEntry globals entryName
  let segments ← buildSegments objects
  reportUndefinedSymbols objects globals
  let state ← applyRelocations objects globals segments
  if state.segments.isEmpty then fail "ristux-ld: no loadable sections"
  else return ⟨objects, globals, entry, state.segments, state.applied⟩

def link : R Linked := do
  let objects ← linkedObjects inputs entryName
  linkSelected objects entryName

def linkObjects : R Bytes :=
  (link inputs entryName).map fun l => writeElf l.segments l.entry

variable (data : Bytes)

end Ristux.Linker
