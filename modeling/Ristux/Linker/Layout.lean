import Ristux.Linker.Live

-- The live sections are placed one after the other, by the kind of the segment they go to, and
-- the segments are filled with the bytes of their sections.

namespace Ristux.Linker
open Lib

def base : ℕ := 0x40100000
def page : ℕ := 0x1000

def align (value alignment : ℕ) : ℕ :=
  let alignment := max alignment 1
  wrap (value + alignment - 1) &&& (u64Max - (alignment - 1))

/-- Whether `layout_kind` places the section in the segment of this kind. -/
def goesTo (kind : SegmentKind) (s : Section) : Bool :=
  s.live && segmentFor s == some kind && (s.typ == shtProgbits || s.typ == shtNobits)

def layoutSectionsOf (kind : SegmentKind) : ℕ → List Section → ℕ × List Section
  | cursor, [] => (cursor, [])
  | cursor, s :: rest =>
    if goesTo kind s then
      let addr := align cursor (max s.addralign 1)
      let (cursor, rest) := layoutSectionsOf kind (saturatingAdd addr s.size) rest
      (cursor, { s with outAddr := addr, segment := some kind } :: rest)
    else
      let (cursor, rest) := layoutSectionsOf kind cursor rest
      (cursor, s :: rest)

def layoutKind (kind : SegmentKind) : ℕ → List Object → ℕ × List Object
  | cursor, [] => (cursor, [])
  | cursor, object :: rest =>
    let (cursor, sections) := layoutSectionsOf kind cursor object.sections
    let (cursor, rest) := layoutKind kind cursor rest
    (cursor, { object with sections := sections } :: rest)

variable (objects : List Object)

def layoutSections : List Object :=
  let (cursor, objects) := layoutKind .text base objects
  let (cursor, objects) := layoutKind .rodata (align cursor page) objects
  (layoutKind .data (align cursor page) objects).2

def pfX : ℕ := 1
def pfW : ℕ := 2
def pfR : ℕ := 4

structure Segment where
  kind : SegmentKind
  vaddr : ℕ
  flags : ℕ
  bytes : Bytes
  deriving DecidableEq, Repr

/-- The sections of all objects, in the order in which the linker goes through them. -/
def objectSections : List (Object × Section) :=
  objects.flatMap fun object => object.sections.map fun s => (object, s)

/-- The sections placed in a segment. -/
def placedIn (kind : SegmentKind) : List (Object × Section) :=
  (objectSections objects).filter (·.2.segment = some kind)

def segmentBounds (kind : SegmentKind) : Option (ℕ × ℕ) :=
  let sections := (placedIn objects kind).map (·.2)
  let start := sections.foldl (fun start s => min start s.outAddr) u64Max
  let stop := sections.foldl (fun stop s => max stop (saturatingAdd s.outAddr s.size)) 0
  if start = u64Max then none else some (start, stop)

/-- Copy a section to its place in the segment that starts at `start`. -/
def copySection (start : ℕ) (bytes : Bytes) (entry : Object × Section) : R Bytes :=
  let (object, s) := entry
  if s.typ = shtNobits then .ok bytes
  else do
    let src ← sectionBytes object s
    if s.outAddr - start + src.length ≤ bytes.length then
      return splice bytes (s.outAddr - start) src
    else .error .panicked

def buildSegment (kind : SegmentKind) (flags : ℕ) :
    R (Option Segment) :=
  match segmentBounds objects kind with
  | none => .ok none
  | some (start, stop) => do
    let bytes ← (placedIn objects kind).foldlM (copySection start) (zeros (stop - start))
    return some ⟨kind, start, flags, bytes⟩

def segmentFlags : List (SegmentKind × ℕ) :=
  [(.text, pfR + pfX), (.rodata, pfR), (.data, pfR + pfW)]

def buildSegments : R (List Segment) := do
  let segments ← segmentFlags.mapM fun (kind, flags) => buildSegment objects kind flags
  return segments.reduceOption

end Ristux.Linker
