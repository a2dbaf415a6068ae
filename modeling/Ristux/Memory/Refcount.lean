import Ristux.Memory.Frames
import Mathlib.Logic.Function.Basic

-- The frames with their references: `refcount.rs` over the frame allocator. A frame for which the
-- table of the source has no entry has one reference.

namespace Ristux.Memory
open Function FrameAllocator

inductive PagingError
  | outOfFrames | alreadyMapped | notMapped | hugePage | refcountOverflow | refcountUnavailable
  deriving Repr, DecidableEq

/-- The references to each frame by its index, and the allocator. -/
structure PhysicalMemory where
  counts : ℕ → ℕ
  frames : FrameAllocator

namespace PhysicalMemory
variable (m : PhysicalMemory) (frame : ℕ)

/-- `refcount::get`. -/
def references : ℕ := m.counts (frameIndex frame)

/-- A frame that is handed out has one reference. -/
def allocateFrame : Option (ℕ × PhysicalMemory) :=
  match m.frames.allocate with
  | (none, _) => none
  | (some frame, frames) => some (frame, ⟨update m.counts (frameIndex frame) 1, frames⟩)

/-- `chunk` says whether the heap has room for the entry of the frame. -/
def tryIncrement (chunk : Bool) : Except PagingError PhysicalMemory :=
  if !chunk then .error .refcountUnavailable
  else if m.references frame + 1 < 2 ^ 16 then
    .ok { m with counts := update m.counts (frameIndex frame) (m.references frame + 1) }
  else .error .refcountOverflow

def decrement : PhysicalMemory :=
  { m with counts := update m.counts (frameIndex frame) (m.references frame - 1) }

/-- The end of `unmap_user_page`: the frame of the last reference is free again. -/
def release : PhysicalMemory :=
  let m := m.decrement frame
  if m.references frame = 0 then { m with frames := m.frames.free frame } else m

/-- A memory of so many frames, of which none is in use. -/
def unused (frames : ℕ) : PhysicalMemory := ⟨fun _ => 1, ⟨fun _ => 0⟩, frames, frames, frames, true⟩

end PhysicalMemory
end Ristux.Memory
