import Ristux.Lib.Bytes
import Ristux.Lib.Keyed
import Ristux.Memory.Refcount

-- The part of `memory/address_space.rs` that the process table and the system calls use: which
-- pages are mapped, to which frames, and what may be done with them. Growing a list succeeds, and
-- the frames of the page tables are not counted.

namespace Ristux.Kernel
open Ristux.Lib List
open Memory (PhysicalMemory PagingError)

def usizeMax : ℕ := 2 ^ 64 - 1
def frameSize : ℕ := 4096
def userMappingStart : ℕ := 0x40000000
def userMappingEnd : ℕ := 0x70100000

inductive UserProtection where
  | none
  | readOnly
  | readExecute
  | readWrite
  deriving DecidableEq, Repr

inductive UserAccess where
  | read
  | write
  | execute
  deriving DecidableEq, Repr

def UserProtection.allowsAccess : UserProtection → UserAccess → Bool
  | .readOnly, .read | .readExecute, .read | .readWrite, .read => true
  | .readWrite, .write => true
  | .readExecute, .execute => true
  | _, _ => false

/-- An entry of `user_mappings`, with the two bits of its page table entry that do not follow from
the protection of the page. -/
structure Mapping where
  page : ℕ
  frame : ℕ
  writable : Bool
  cow : Bool
  deriving DecidableEq, Repr

/-- The entry of a page after a fork, in the parent and in the child. -/
def Mapping.shared (m : Mapping) : Mapping :=
  if m.writable then { m with writable := false, cow := true } else m

theorem page_shared (m : Mapping) : m.shared.page = m.page := by
  unfold Mapping.shared
  split <;> rfl

/-- An address space: the physical address of its root table, the protection of each page (`none`
outside every mapping), the pages that are present rather than still lazy, and the bytes. -/
structure AddressSpace where
  p4Phys : ℕ
  protection : ℕ → Option UserProtection
  userMappings : Keyed Mapping Mapping.page
  memory : Buf

variable (space : AddressSpace) (phys : PhysicalMemory) (addr len : ℕ) (access : UserAccess)

namespace AddressSpace

/-- `new_kernel_clone`: no user page is mapped. -/
def newKernelClone (p4Phys : ℕ) : AddressSpace where
  p4Phys := p4Phys
  protection := fun _ => none
  userMappings := ⟨[], nodup_nil⟩
  memory := fun _ => 0

/-- The pages from the one of `addr` to the one of the last byte, unless the end or its
rounding up overflows. -/
def pages : Option (List ℕ) :=
  if addr + len + (frameSize - 1) ≤ usizeMax then
    some (List.range' (addr / frameSize)
      ((addr + len + (frameSize - 1)) / frameSize - addr / frameSize))
  else none

def pageAllowsUser (page : ℕ) : Bool :=
  ((space.protection page).any fun protection => protection.allowsAccess access) &&
    (space.userMappings.get page).any fun m => access ≠ .write || m.writable || m.cow

def allowsUser : Bool :=
  if len = 0 then true
  else match pages addr len with
    | none => false
    | some ps => ps.all (space.pageAllowsUser access)

/-- A loop over pages, which ends at the first page it fails at. What it did before stays. -/
def eachPage
    (step : AddressSpace → PhysicalMemory → ℕ → Option (AddressSpace × PhysicalMemory)) :
    List ℕ → AddressSpace → PhysicalMemory → Bool × AddressSpace × PhysicalMemory
  | [], space, phys => (true, space, phys)
  | page :: rest, space, phys =>
    match step space phys page with
    | none => (false, space, phys)
    | some (space, phys) => eachPage step rest space phys

def setMapping (m : Mapping) : AddressSpace :=
  { space with userMappings := space.userMappings.put m }

/-- The page becomes writable: as it is if nobody else has its frame, and otherwise with a frame of
its own. -/
def breakCowPage (m : Mapping) : Option (AddressSpace × PhysicalMemory) :=
  if phys.references m.frame ≤ 1 then
    some (space.setMapping { m with writable := true, cow := false }, phys)
  else match phys.allocateFrame with
    | none => none
    | some (frame, phys) =>
      some (space.setMapping { m with frame := frame, writable := true, cow := false },
        phys.decrement m.frame)

def ensurePageWritable (page : ℕ) : Option (AddressSpace × PhysicalMemory) :=
  match space.userMappings.get page with
  | none => none
  | some m =>
    if m.writable then some (space, phys)
    else if m.cow then space.breakCowPage phys m
    else none

def ensureUserWritable : Bool × AddressSpace × PhysicalMemory :=
  if len = 0 then (true, space, phys)
  else match pages addr len with
    | none => (false, space, phys)
    | some ps =>
      if ps.all fun page =>
          (space.userMappings.get page).isSome && space.protection page = some .readWrite then
        eachPage ensurePageWritable ps space phys
      else (false, space, phys)

/-- What is checked before a thread id is written: `allows_user` and then `ensure_user_writable`.
A null pointer stands for no thread id. -/
def prepareTid : Bool × AddressSpace × PhysicalMemory :=
  if addr = 0 then (true, space, phys)
  else if space.allowsUser addr 4 .write then space.ensureUserWritable phys addr 4
  else (false, space, phys)

/-- `map_zero_page_with_protection`. -/
def mapZeroPageWithProtection (page : ℕ) (protection : UserProtection) :
    Option (AddressSpace × PhysicalMemory) :=
  if page * frameSize < userMappingStart ∨ userMappingEnd < page * frameSize + frameSize then none
  else match phys.allocateFrame with
    | none => none
    | some (frame, phys) =>
      some ({ space with
        userMappings := space.userMappings.push ⟨page, frame, protection = .readWrite, false⟩
        memory := fun i => if i / frameSize = page then 0 else space.memory i }, phys)

def materializePage (page : ℕ) : Option (AddressSpace × PhysicalMemory) :=
  if (space.userMappings.get page).isSome then some (space, phys)
  else match space.protection page with
    | none => none
    | some protection =>
      if protection.allowsAccess access then
        space.mapZeroPageWithProtection phys page protection
      else none

def materializeLazyRange : Bool × AddressSpace × PhysicalMemory :=
  if len = 0 then (true, space, phys)
  else match pages addr len with
    | none => (false, space, phys)
    | some ps => eachPage (fun space phys => space.materializePage phys access) ps space phys

def prepareUserRead : Bool × AddressSpace × PhysicalMemory :=
  match space.materializeLazyRange phys addr len .read with
  | (false, space, phys) => (false, space, phys)
  | (true, space, phys) => (space.allowsUser addr len .read, space, phys)

def prepareUserWrite : Bool × AddressSpace × PhysicalMemory :=
  match space.materializeLazyRange phys addr len .write with
  | (false, space, phys) => (false, space, phys)
  | (true, space, phys) => space.ensureUserWritable phys addr len

/-- Each frame loses the reference of its page. -/
def clearUserPages : AddressSpace × PhysicalMemory :=
  ({ space with protection := fun _ => none, userMappings := ⟨[], nodup_nil⟩ },
    space.userMappings.entries.foldl (fun phys m => phys.release m.frame) phys)

/-- One reference more to the frame of each page. -/
def shareFrames : Except PagingError PhysicalMemory :=
  space.userMappings.entries.foldlM (fun phys m =>
    if (space.protection m.page).isNone then .error .notMapped
    else phys.tryIncrement m.frame true) phys

/-- `clone_full_copy`: what becomes of the parent, and the copy with its root table at `p4Phys`. A
copy that fails is undone. -/
def cloneFullCopy (p4Phys : ℕ) :
    Except PagingError (AddressSpace × AddressSpace × PhysicalMemory) :=
  match space.shareFrames phys with
  | .error e => .error e
  | .ok phys =>
    let parent := { space with userMappings := space.userMappings.map Mapping.shared page_shared }
    .ok (parent, { parent with p4Phys := p4Phys }, phys)

end AddressSpace
end Ristux.Kernel
