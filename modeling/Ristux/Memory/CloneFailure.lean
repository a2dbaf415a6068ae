import Ristux.Memory.Mmap
import Ristux.Memory.FrameRuns

-- `clone_full_copy` of `kernel/src/memory/address_space.rs` with its rollback.

namespace Ristux.Memory.CloneFailure
open List Function
open FrameAllocator (frameIndex Taken mem_allocatable)

/-- The bits of an entry; `rest` are those that no step here looks at. -/
structure PteFlags where
  writable : Bool
  cow : Bool
  rest : ℕ
  deriving Repr, DecidableEq

/-- The frames with their references, and the entries of the parent. -/
structure State extends PhysicalMemory where
  ptes : ℕ → Option PteFlags

/-- The mappings of the clone and the frames of its tables. Below the two that it starts with,
`none` is the table of the second level, `some i` that of the first level in its entry `i`. -/
structure Clone where
  p4Frame : ℕ
  p3Frame : ℕ
  userMappings : List (ℕ × ℕ)
  tables : List (Option ℕ × ℕ)

/-- Which allocations from the heap succeed; `chunk` says it for the counts of a frame. -/
structure Heap where
  mappingEntries : Bool
  lazyEntries : Bool
  cowPages : Bool
  chunk : ℕ → Bool

/-- The frames of the tables, in the order in which they are given back. Of the tables of the first
level the last one made comes first; the source takes them by their index. -/
def Clone.frames (c : Clone) : List ℕ := c.tables.map (·.2) ++ [c.p3Frame, c.p4Frame]

namespace State
variable (m : State) (frame : ℕ)

def allocateFrame : Option (ℕ × State) :=
  m.toPhysicalMemory.allocateFrame.map fun (frame, phys) =>
    (frame, { m with toPhysicalMemory := phys })

def tryIncrement (heap : Heap) : Except PagingError State :=
  (m.toPhysicalMemory.tryIncrement frame (heap.chunk frame)).map fun phys =>
    { m with toPhysicalMemory := phys }

def decrement : State := { m with toPhysicalMemory := m.toPhysicalMemory.decrement frame }

def release : State := { m with toPhysicalMemory := m.toPhysicalMemory.release frame }

/-- With the frame of the root but without one for the second table, the first is not given back. -/
def newKernelClone : Except PagingError Clone × State :=
  match m.allocateFrame with
  | none => (.error .outOfFrames, m)
  | some (p4Frame, m) =>
    match m.allocateFrame with
    | none => (.error .outOfFrames, m)
    | some (p3Frame, m) => (.ok ⟨p4Frame, p3Frame, [], []⟩, m)

def nextTableOrCreate (c : Clone) (table : Option ℕ) : Option (State × Clone) :=
  if table ∈ c.tables.map (·.1) then some (m, c)
  else m.allocateFrame.map fun (frame, m) => (m, { c with tables := (table, frame) :: c.tables })

/-- The tables for a page; the first stays when the second cannot be made. -/
def mapUserPage (c : Clone) (virt : ℕ) : Except PagingError Unit × State × Clone :=
  if virt % 4096 ≠ 0 ∨ virt < 0x40000000 ∨ 0x70100000 < virt + 4096 then (.error .notMapped, m, c)
  else match m.nextTableOrCreate c none with
    | none => (.error .outOfFrames, m, c)
    | some (m, c) =>
      match m.nextTableOrCreate c (some (virt / 2 ^ 21 % 512)) with
      | none => (.error .outOfFrames, m, c)
      | some (m, c) => (.ok (), m, c)

/-- The frames of the tables are given back without a look at their counts. -/
def destroy (c : Clone) : State :=
  let m := c.userMappings.foldl (fun m p => m.release p.2) m
  { m with frames := c.frames.foldl FrameAllocator.free m.frames }

def setPte (p : ℕ × PteFlags) : State := { m with ptes := update m.ptes p.1 (some p.2) }

def restoreParentPageFlags (pages : List (ℕ × PteFlags)) : State := pages.foldl setPte m

def abortCloneWithRollback (c : Clone) (parentCowPages : List (ℕ × PteFlags)) (e : PagingError) :
    Except PagingError Clone × State :=
  (.error e, (m.destroy c).restoreParentPageFlags parentCowPages)

variable (heap : Heap) (protectionForPage : ℕ → Option Kernel.UserProtection)

/-- The loop over the mappings of the parent. -/
def cloneLoop :
    List (ℕ × ℕ) → State → Clone → List (ℕ × PteFlags) → Except PagingError Clone × State
  | [], m, c, _ => (.ok c, m)
  | (virt, frame) :: rest, m, c, cow =>
    match protectionForPage virt, m.ptes virt with
    | some _, some flags =>
      match m.tryIncrement frame heap with
      | .error e => m.abortCloneWithRollback c cow e
      | .ok m =>
        match m.mapUserPage c virt with
        | (.error e, m, c) => (m.decrement frame).abortCloneWithRollback c cow e
        | (.ok _, m, c) =>
          let c := { c with userMappings := c.userMappings ++ [(virt, frame)] }
          if flags.writable then
            cloneLoop rest (m.setPte (virt, { flags with writable := false, cow := true })) c
              (cow ++ [(virt, flags)])
          else cloneLoop rest m c cow
    | _, _ => m.abortCloneWithRollback c cow .notMapped

end State

open State

/-- An address space: no page is mapped twice, and the frames of its pages are in use and have
references. -/
structure AddressSpace (m : State) where
  userMappings : List (ℕ × ℕ)
  protectionForPage : ℕ → Option Kernel.UserProtection
  nodup : (userMappings.map Prod.fst).Nodup
  counted : ∀ p ∈ userMappings, 0 < m.counts (frameIndex p.2)
  inUse : ∀ p ∈ userMappings, ¬m.frames.Free (frameIndex p.2)

def AddressSpace.cloneFullCopy {m : State} (heap : Heap) (s : AddressSpace m) :
    Except PagingError Clone × State :=
  match m.newKernelClone with
  | (.error e, m) => (.error e, m)
  | (.ok c, m) =>
    if heap.mappingEntries && heap.lazyEntries && heap.cowPages then
      cloneLoop heap s.protectionForPage s.userMappings m c []
    else (.error .outOfFrames, m.destroy c)

/-- The counts while the clone holds these frames for its tables. -/
def tableCounts (counts : ℕ → ℕ) (taken : List ℕ) (i : ℕ) : ℕ :=
  if i * frameSize ∈ taken then 1 else counts i

/-- The memory while the clone is made, against that before. -/
structure Cloning (m₀ m : State) (c : Clone) (cow : List (ℕ × PteFlags)) : Prop where
  kept : ∀ v ∉ cow.map Prod.fst, m.ptes v = m₀.ptes v
  saved : ∀ p ∈ cow, m₀.ptes p.1 = some p.2
  counts : ∀ i, m.counts i =
    tableCounts m₀.counts c.frames i + c.userMappings.countP (frameIndex ·.2 = i)
  counted : ∀ p ∈ c.userMappings, 0 < m₀.counts (frameIndex p.2)
  inUse : ∀ p ∈ c.userMappings, ¬m₀.frames.Free (frameIndex p.2)
  taken : Taken m₀.frames m.frames c.frames

variable {m₀ m m' : State} {c c' : Clone} {frame virt : ℕ}

/-- The clone holds one reference more than the parent to each of its frames, so none is freed. -/
theorem foldl_release (counts : ℕ → ℕ) (l : List (ℕ × ℕ))
    (hpos : ∀ p ∈ l, 0 < counts (frameIndex p.2)) :
    ∀ m : State, (∀ i, m.counts i = counts i + l.countP (frameIndex ·.2 = i)) →
      l.foldl (fun m p => m.release p.2) m = { m with counts := counts } := by
  induction l with
  | nil =>
    intro m h
    have : m.counts = counts := funext h
    rw [foldl_nil, ← this]
  | cons p l ih =>
    intro m h
    have hp := h (frameIndex p.2)
    have := hpos p (mem_cons_self ..)
    rw [countP_cons_of_pos (by simp)] at hp
    have hrelease : m.release p.2 = m.decrement p.2 := by
      unfold release decrement PhysicalMemory.release
      refine congrArg (State.mk · m.ptes) (if_neg ?_)
      simp only [PhysicalMemory.references, PhysicalMemory.decrement, update_self]
      omega
    rw [foldl_cons, hrelease, ih (forall_mem_cons.1 hpos).2]
    · rfl
    intro i
    simp only [decrement, PhysicalMemory.references, PhysicalMemory.decrement]
    by_cases hi : i = frameIndex p.2
    · rw [hi, update_self]
      omega
    · rw [update_of_ne hi, h i, countP_cons_of_neg (by simp [Ne.symm hi])]

theorem foldl_setPte (ptes : ℕ → Option PteFlags) (l : List (ℕ × PteFlags))
    (hsaved : ∀ p ∈ l, ptes p.1 = some p.2) :
    ∀ m : State, (∀ v ∉ l.map Prod.fst, m.ptes v = ptes v) →
      l.foldl setPte m = { m with ptes := ptes } := by
  induction l with
  | nil =>
    intro m h
    have : m.ptes = ptes := funext fun v => h v not_mem_nil
    rw [foldl_nil, ← this]
  | cons p l ih =>
    intro m h
    refine ih (forall_mem_cons.1 hsaved).2 (m.setPte p) fun v hv => ?_
    by_cases hvp : v = p.1
    · simp only [setPte, hvp, update_self, hsaved p (mem_cons_self ..)]
    · simp only [setPte, update_of_ne hvp]
      exact h v (by simp [hvp, hv])

/-- What a failed clone leaves: the entries are as before, and so are the counts of the frames that
were in use; a frame that was free may have been taken for a table. -/
structure RolledBack (m m' : State) : Prop where
  ptes : m'.ptes = m.ptes
  inUse : ∀ i, ¬m.frames.Free i → m'.counts i = m.counts i
  free : ∀ i, m.frames.Free i → m'.counts i = m.counts i ∨ m'.counts i = 1

/-- The same frames are free, and there are as many. -/
structure SameFrames (m m' : State) : Prop where
  free : ∀ i, m'.frames.Free i ↔ m.frames.Free i
  freeFrames : m'.frames.freeFrames = m.frames.freeFrames

theorem rolledBack_of_taken {a : FrameAllocator} {taken : List ℕ}
    (h : Taken m₀.frames a taken) (frames : FrameAllocator) :
    RolledBack m₀ ⟨⟨tableCounts m₀.counts taken, frames⟩, m₀.ptes⟩ where
  ptes := rfl
  inUse i hi := by
    refine if_neg fun hmem => hi ?_
    obtain ⟨j, hj, heq⟩ := h.mem _ hmem
    rw [Taken.mul_frameSize_inj.1 heq]
    exact (mem_allocatable.1 hj).2.2
  free i _ := by
    by_cases hmem : i * frameSize ∈ taken
    · exact .inr (if_pos hmem)
    · exact .inl (if_neg hmem)

theorem Cloning.rollback {cow : List (ℕ × PteFlags)} (h : Cloning m₀ m c cow)
    (hcounted : m₀.frames.Counted) :
    RolledBack m₀ ((m.destroy c).restoreParentPageFlags cow) ∧
      SameFrames m₀ ((m.destroy c).restoreParentPageFlags cow) := by
  have hpos : ∀ p ∈ c.userMappings, 0 < tableCounts m₀.counts c.frames (frameIndex p.2) := by
    intro p hp
    unfold tableCounts
    split
    · exact Nat.one_pos
    · exact h.counted p hp
  have hend : (m.destroy c).restoreParentPageFlags cow =
      ⟨⟨tableCounts m₀.counts c.frames, c.frames.foldl FrameAllocator.free m.frames⟩, m₀.ptes⟩ := by
    rw [destroy, foldl_release _ _ hpos m h.counts]
    exact foldl_setPte m₀.ptes cow h.saved _ h.kept
  rw [hend]
  obtain ⟨hfree, hnumber⟩ := h.taken.giveAll.freeFrames_eq hcounted
  exact ⟨rolledBack_of_taken h.taken _, hfree, hnumber⟩

theorem frameIndex_mul (i : ℕ) : frameIndex (i * frameSize) = i :=
  Nat.mul_div_cancel i (by decide)

/-- A table takes a frame that was free, with one reference. -/
theorem allocateFrame_some {taken : List ℕ} (h : Taken m₀.frames m.frames taken)
    (halloc : m.allocateFrame = some (frame, m')) :
    m'.ptes = m.ptes ∧ Taken m₀.frames m'.frames (frame :: taken) ∧
      ∃ i, frame = i * frameSize ∧ m₀.frames.Free i ∧ m'.counts = update m.counts i 1 := by
  unfold allocateFrame PhysicalMemory.allocateFrame at halloc
  rcases h.allocate with ⟨i, hi, -, frames, heq, htaken⟩ | ⟨heq, -⟩
  · rw [heq] at halloc
    cases halloc
    refine ⟨rfl, htaken, i, rfl, (mem_allocatable.1 hi).2.2, ?_⟩
    dsimp only
    rw [frameIndex_mul]
  · rw [heq] at halloc
    cases halloc

theorem allocateFrame_none {taken : List ℕ} (h : Taken m₀.frames m.frames taken)
    (halloc : m.allocateFrame = none) : ∀ i ∈ m₀.frames.allocatable, i * frameSize ∈ taken := by
  unfold allocateFrame PhysicalMemory.allocateFrame at halloc
  rcases h.allocate with ⟨i, hi, -, frames, heq, -⟩ | ⟨-, hall⟩
  · rw [heq] at halloc
    cases halloc
  · exact hall

/-- One more table changes the count of its frame only, which no page of the clone has. -/
theorem Cloning.table {cow : List (ℕ × PteFlags)} (h : Cloning m₀ m c cow) {table : Option ℕ}
    (hstep : m.nextTableOrCreate c table = some (m', c')) :
    Cloning m₀ m' c' cow ∧ m'.ptes = m.ptes ∧ c'.userMappings = c.userMappings := by
  unfold nextTableOrCreate at hstep
  split at hstep
  · cases hstep
    exact ⟨h, rfl, rfl⟩
  obtain ⟨⟨frame, m₁⟩, halloc, heq⟩ := Option.map_eq_some_iff.1 hstep
  cases heq
  obtain ⟨hptes, htaken, i, rfl, hfree, hcounts⟩ := allocateFrame_some h.taken halloc
  refine ⟨⟨hptes ▸ h.kept, h.saved, fun j => ?_, h.counted, h.inUse, htaken⟩, hptes, rfl⟩
  rw [hcounts]
  by_cases hj : j = i
  · have hnone : c.userMappings.countP (frameIndex ·.2 = i) = 0 := by
      refine countP_eq_zero.2 fun p hp heq => h.inUse p hp ?_
      rw [of_decide_eq_true heq]
      exact hfree
    have hone : tableCounts m₀.counts (Clone.frames
        { c with tables := (table, i * frameSize) :: c.tables }) i = 1 :=
      if_pos mem_cons_self
    rw [hj, update_self, hone, hnone]
  · have hsame : tableCounts m₀.counts (Clone.frames
        { c with tables := (table, i * frameSize) :: c.tables }) j =
        tableCounts m₀.counts c.frames j := by
      refine if_congr ?_ rfl rfl
      rw [show Clone.frames { c with tables := (table, i * frameSize) :: c.tables } =
        i * frameSize :: c.frames from rfl, mem_cons, Taken.mul_frameSize_inj, or_iff_right hj]
    rw [update_of_ne hj, h.counts, hsame]

theorem Cloning.tables {cow : List (ℕ × PteFlags)} (h : Cloning m₀ m c cow)
    {r : Except PagingError Unit} (hmap : m.mapUserPage c virt = (r, m', c')) :
    Cloning m₀ m' c' cow ∧ m'.ptes = m.ptes ∧ c'.userMappings = c.userMappings := by
  unfold mapUserPage at hmap
  split at hmap
  · cases hmap
    exact ⟨h, rfl, rfl⟩
  split at hmap
  · cases hmap
    exact ⟨h, rfl, rfl⟩
  next m₁ c₁ hfirst =>
  obtain ⟨h₁, hptes₁, hmappings₁⟩ := h.table hfirst
  split at hmap
  · cases hmap
    exact ⟨h₁, hptes₁, hmappings₁⟩
  next hsecond =>
  cases hmap
  obtain ⟨h₂, hptes₂, hmappings₂⟩ := h₁.table hsecond
  exact ⟨h₂, hptes₂.trans hptes₁, hmappings₂.trans hmappings₁⟩

theorem nextTableOrCreate_userMappings {table : Option ℕ}
    (h : m.nextTableOrCreate c table = some (m', c')) : c'.userMappings = c.userMappings := by
  unfold nextTableOrCreate at h
  split at h
  · cases h
    rfl
  · obtain ⟨⟨frame, m₁⟩, -, heq⟩ := Option.map_eq_some_iff.1 h
    cases heq
    rfl

/-- The mappings of the clone make no difference to its tables. -/
theorem nextTableOrCreate_mappings {table : Option ℕ} (userMappings : List (ℕ × ℕ))
    (h : m.nextTableOrCreate c table = some (m', c')) :
    m.nextTableOrCreate { c with userMappings := userMappings } table =
      some (m', { c' with userMappings := userMappings }) := by
  unfold nextTableOrCreate at h ⊢
  dsimp only at h ⊢
  split at h
  · next hin =>
    cases h
    rw [if_pos hin]
  · next hin =>
    obtain ⟨⟨frame, m₁⟩, halloc, heq⟩ := Option.map_eq_some_iff.1 h
    cases heq
    rw [if_neg hin, halloc]
    rfl

theorem nextTableOrCreate_none {table : Option ℕ} (userMappings : List (ℕ × ℕ))
    (h : m.nextTableOrCreate c table = none) :
    m.nextTableOrCreate { c with userMappings := userMappings } table = none := by
  unfold nextTableOrCreate at h ⊢
  dsimp only at h ⊢
  split at h
  · cases h
  · next hin =>
    rw [if_neg hin, Option.map_eq_none_iff.1 h]
    rfl

theorem mapUserPage_mappings {r : Except PagingError Unit} (userMappings : List (ℕ × ℕ))
    (h : m.mapUserPage c virt = (r, m', c')) :
    m.mapUserPage { c with userMappings := userMappings } virt =
      (r, m', { c' with userMappings := userMappings }) := by
  unfold mapUserPage at h ⊢
  split at h
  · next hbad =>
    cases h
    rw [if_pos hbad]
  next hbad =>
  rw [if_neg hbad]
  split at h
  · next hfirst =>
    cases h
    rw [nextTableOrCreate_none userMappings hfirst]
  next hfirst =>
  rw [nextTableOrCreate_mappings userMappings hfirst]
  dsimp only
  split at h
  · next hsecond =>
    cases h
    rw [nextTableOrCreate_none userMappings hsecond]
  · next hsecond =>
    cases h
    rw [nextTableOrCreate_mappings userMappings hsecond]

namespace Cloning
variable {cow : List (ℕ × PteFlags)} {heap : Heap} {m₁ : State}

/-- The reference for a page that the clone is about to map. -/
theorem increment (h : Cloning m₀ m c cow) (virt : ℕ) (hinc : m.tryIncrement frame heap = .ok m₁)
    (hpos : 0 < m₀.counts (frameIndex frame)) (huse : ¬m₀.frames.Free (frameIndex frame)) :
    Cloning m₀ m₁ { c with userMappings := c.userMappings ++ [(virt, frame)] } cow ∧
      m₁.ptes = m.ptes := by
  obtain ⟨hptes, hframes, hcounts⟩ : m₁.ptes = m.ptes ∧ m₁.frames = m.frames ∧
      m₁.counts = update m.counts (frameIndex frame) (m.counts (frameIndex frame) + 1) := by
    unfold tryIncrement PhysicalMemory.tryIncrement at hinc
    split_ifs at hinc <;> cases hinc
    exact ⟨rfl, rfl, rfl⟩
  refine ⟨⟨hptes ▸ h.kept, h.saved, fun i => ?_, fun p hp => ?_, fun p hp => ?_,
    hframes ▸ h.taken⟩, hptes⟩
  · dsimp only
    rw [hcounts, countP_append, ← Nat.add_assoc]
    change _ = tableCounts m₀.counts c.frames i + _ + _
    rw [← h.counts]
    by_cases hi : i = frameIndex frame
    · simp [hi]
    · simp [update_of_ne hi, Ne.symm hi]
  · rcases mem_append.1 hp with hp | hp
    · exact h.counted p hp
    · rw [mem_singleton.1 hp]
      exact hpos
  · rcases mem_append.1 hp with hp | hp
    · exact h.inUse p hp
    · rw [mem_singleton.1 hp]
      exact huse

/-- Without the page the reference is taken back. -/
theorem decrement {userMappings : List (ℕ × ℕ)}
    (h : Cloning m₀ m { c with userMappings := userMappings ++ [(virt, frame)] } cow) :
    Cloning m₀ (m.decrement frame) { c with userMappings := userMappings } cow := by
  refine ⟨h.kept, h.saved, fun i => ?_, fun p hp => h.counted p (mem_append_left _ hp),
    fun p hp => h.inUse p (mem_append_left _ hp), h.taken⟩
  have hi := h.counts i
  dsimp only at hi
  rw [countP_append, ← Nat.add_assoc] at hi
  unfold State.decrement PhysicalMemory.decrement PhysicalMemory.references
  dsimp only
  change _ = tableCounts m₀.counts c.frames i + _
  change _ = tableCounts m₀.counts c.frames i + _ + _ at hi
  by_cases hframe : i = frameIndex frame
  · rw [hframe, update_self]
    rw [hframe, countP_singleton] at hi
    simp only [decide_true, if_true] at hi
    omega
  · rw [update_of_ne hframe, hi]
    simp [Ne.symm hframe]

/-- A page that cannot be mapped leaves the clone as it was, with more tables perhaps, and one that
is mapped has a reference more. -/
theorem mapUserPage (h : Cloning m₀ m c cow) (hinc : m.tryIncrement frame heap = .ok m₁)
    (hpos : 0 < m₀.counts (frameIndex frame)) (huse : ¬m₀.frames.Free (frameIndex frame))
    {r : Except PagingError Unit} (hmap : m₁.mapUserPage c virt = (r, m', c')) :
    m'.ptes = m.ptes ∧ Cloning m₀ (m'.decrement frame) c' cow ∧
      Cloning m₀ m' { c' with userMappings := c'.userMappings ++ [(virt, frame)] } cow := by
  obtain ⟨h₁, hptes₁⟩ := h.increment virt hinc hpos huse
  obtain ⟨hmapped, hptes, -⟩ := h₁.tables (mapUserPage_mappings _ hmap)
  have hsame : c'.userMappings = c.userMappings := by
    unfold State.mapUserPage at hmap
    split at hmap
    · cases hmap
      rfl
    split at hmap
    · cases hmap
      rfl
    next hfirst =>
    split at hmap
    · cases hmap
      exact nextTableOrCreate_userMappings hfirst
    · next hsecond =>
      cases hmap
      exact (nextTableOrCreate_userMappings hsecond).trans (nextTableOrCreate_userMappings hfirst)
  rw [← hsame] at hmapped
  exact ⟨hptes.trans hptes₁, hmapped.decrement, hmapped⟩

variable (h : Cloning m₀ m c cow)
include h

/-- The entry of the parent is changed after its flags are saved. -/
theorem setPte (shared : PteFlags) (hv : virt ∉ cow.map Prod.fst) {flags : PteFlags}
    (hflags : m.ptes virt = some flags) :
    Cloning m₀ (m.setPte (virt, shared)) c (cow ++ [(virt, flags)]) where
  kept v hnot := by
    simp only [map_append, mem_append, map_singleton, mem_singleton, not_or] at hnot
    simp only [State.setPte, update_of_ne hnot.2]
    exact h.kept v hnot.1
  saved p hp := by
    rcases mem_append.1 hp with hp | hp
    · exact h.saved p hp
    · rw [mem_singleton.1 hp, ← h.kept virt hv]
      exact hflags
  counts := h.counts
  counted := h.counted
  inUse := h.inUse
  taken := h.taken

end Cloning

/-- A failure at any page is rolled back. -/
theorem cloneLoop_error (heap : Heap) (protectionForPage : ℕ → Option Kernel.UserProtection)
    (hcounted : m₀.frames.Counted) {e : PagingError} (l : List (ℕ × ℕ))
    (hl : (l.map Prod.fst).Nodup) (hpos : ∀ p ∈ l, 0 < m₀.counts (frameIndex p.2))
    (huse : ∀ p ∈ l, ¬m₀.frames.Free (frameIndex p.2)) :
    ∀ {m c cow}, Cloning m₀ m c cow → (∀ p ∈ l, p.1 ∉ cow.map Prod.fst) →
      cloneLoop heap protectionForPage l m c cow = (.error e, m') →
        RolledBack m₀ m' ∧ SameFrames m₀ m' := by
  induction l with
  | nil => exact fun _ _ => nofun
  | cons p l ih =>
    intro m c cow h hnew hloop
    obtain ⟨virt, frame⟩ := p
    have habort : ∀ {m c e'}, Cloning m₀ m c cow →
        m.abortCloneWithRollback c cow e' = (.error e, m') →
          RolledBack m₀ m' ∧ SameFrames m₀ m' := by
      intro m c e' h habort
      cases habort
      exact h.rollback hcounted
    obtain ⟨hvirt, hl⟩ := nodup_cons.1 hl
    obtain ⟨hpos₁, hpos⟩ := forall_mem_cons.1 hpos
    obtain ⟨huse₁, huse⟩ := forall_mem_cons.1 huse
    have hrest := @ih hl hpos huse
    rw [cloneLoop] at hloop
    split at hloop
    · next flags _ hflags =>
      split at hloop
      · exact habort h hloop
      next m₁ hinc =>
      split at hloop
      · next hmap => exact habort (h.mapUserPage hinc hpos₁ huse₁ hmap).2.1 hloop
      next m₂ c₂ hmap =>
      obtain ⟨hptes, -, hmapped⟩ := h.mapUserPage hinc hpos₁ huse₁ hmap
      dsimp only at hloop
      split_ifs at hloop
      · refine hrest (hmapped.setPte _ (hnew _ (mem_cons_self ..)) (hptes ▸ hflags)) ?_ hloop
        intro p hp hmem
        rw [map_append, mem_append, map_singleton, mem_singleton] at hmem
        rcases hmem with hmem | hmem
        · exact hnew p (mem_cons_of_mem _ hp) hmem
        · exact hvirt (hmem ▸ mem_map_of_mem hp)
      · exact hrest hmapped (forall_mem_cons.1 hnew).2 hloop
    · exact habort h hloop

/-- The two tables of a clone without pages. -/
theorem cloning_start (hinit : m.frames.initialized = true) (hcounted : m.frames.Counted)
    {m₁ m₂ : State} {p4Frame p3Frame : ℕ} (h₁ : m.allocateFrame = some (p4Frame, m₁))
    (h₂ : m₁.allocateFrame = some (p3Frame, m₂)) : Cloning m m₂ ⟨p4Frame, p3Frame, [], []⟩ [] := by
  obtain ⟨hptes₁, htaken₁, i, rfl, -, hcounts₁⟩ :=
    allocateFrame_some (.refl hinit hcounted) h₁
  obtain ⟨hptes₂, htaken₂, j, rfl, -, hcounts₂⟩ := allocateFrame_some htaken₁ h₂
  refine ⟨fun _ _ => by rw [hptes₂, hptes₁], nofun, fun k => ?_, nofun, nofun, htaken₂⟩
  rw [hcounts₂, hcounts₁]
  unfold tableCounts Clone.frames
  simp only [map_nil, nil_append, mem_cons, not_mem_nil, or_false, Taken.mul_frameSize_inj,
    countP_nil, update_apply, Nat.add_zero]
  by_cases hj : k = j
  · simp [hj]
  · simp [hj]

/-- Without a frame for the second table the root table keeps the only one there was. -/
theorem root_table_lost (hinit : m.frames.initialized = true) (hcounted : m.frames.Counted)
    {m₁ : State} (h₁ : m.allocateFrame = some (frame, m₁)) (h₂ : m₁.allocateFrame = none) :
    RolledBack m m₁ ∧ m.frames.allocatable.card = 1 ∧
      m₁.frames.freeFrames ≠ m.frames.freeFrames := by
  obtain ⟨hptes, htaken, i, rfl, -, hcounts⟩ := allocateFrame_some (.refl hinit hcounted) h₁
  refine ⟨?_, ?_, htaken.freeFrames_ne hcounted⟩
  · have hm₁ : m₁ = ⟨⟨tableCounts m.counts [i * frameSize], m₁.frames⟩, m.ptes⟩ := by
      have hsame : m₁.counts = tableCounts m.counts [i * frameSize] := by
        rw [hcounts]
        funext j
        rw [update_apply]
        exact if_congr (by rw [mem_singleton, Taken.mul_frameSize_inj]) rfl rfl
      rw [← hptes, ← hsame]
    rw [hm₁]
    exact rolledBack_of_taken htaken m₁.frames
  · refine Finset.card_eq_one.2 ⟨i, ?_⟩
    ext j
    rw [Finset.mem_singleton]
    constructor
    · intro hj
      have hin := allocateFrame_none htaken h₂ j hj
      rw [mem_singleton] at hin
      exact Taken.mul_frameSize_inj.1 hin
    · rintro rfl
      obtain ⟨k, hk, heq⟩ := htaken.mem _ mem_cons_self
      rwa [Taken.mul_frameSize_inj.1 heq]

/-- A clone that fails leaves the entries of the parent and the counts of the frames in use as they
were. The same number of frames is free, unless there was exactly one to take. -/
theorem failed_clone_rolled_back (heap : Heap) (m m' : State) (e : PagingError)
    (hinit : m.frames.initialized = true) (hcounted : m.frames.Counted) (s : AddressSpace m)
    (h : s.cloneFullCopy heap = (.error e, m')) :
    RolledBack m m' ∧ (m.frames.allocatable.card ≠ 1 → SameFrames m m') ∧
      (m'.frames.freeFrames = m.frames.freeFrames ↔ m.frames.allocatable.card ≠ 1) := by
  have hall : RolledBack m m' ∧ SameFrames m m' → m.frames.allocatable.card ≠ 1 →
      RolledBack m m' ∧ (m.frames.allocatable.card ≠ 1 → SameFrames m m') ∧
        (m'.frames.freeFrames = m.frames.freeFrames ↔ m.frames.allocatable.card ≠ 1) :=
    fun h hcard => ⟨h.1, fun _ => h.2, iff_of_true h.2.freeFrames hcard⟩
  have hstart : Taken m.frames m.frames [] := .refl hinit hcounted
  unfold AddressSpace.cloneFullCopy newKernelClone at h
  cases h₁ : m.allocateFrame with
  | none =>
    rw [h₁] at h
    cases h
    have hempty : m.frames.allocatable = ∅ :=
      Finset.eq_empty_of_forall_notMem fun i hi => by simpa using allocateFrame_none hstart h₁ i hi
    exact hall ⟨rolledBack_of_taken hstart m.frames, fun _ => Iff.rfl, rfl⟩ (by simp [hempty])
  | some first =>
    obtain ⟨p4Frame, m₁⟩ := first
    rw [h₁] at h
    dsimp only at h
    cases h₂ : m₁.allocateFrame with
    | none =>
      rw [h₂] at h
      cases h
      obtain ⟨hback, hone, hlost⟩ := root_table_lost hinit hcounted h₁ h₂
      exact ⟨hback, fun hcard => absurd hone hcard, iff_of_false hlost (not_not.2 hone)⟩
    | some second =>
      obtain ⟨p3Frame, m₂⟩ := second
      have hcloning := cloning_start hinit hcounted h₁ h₂
      have hcard : m.frames.allocatable.card ≠ 1 := by
        obtain ⟨-, htaken, -⟩ := allocateFrame_some hstart h₁
        obtain ⟨-, htaken₂, -⟩ := allocateFrame_some htaken h₂
        exact htaken₂.card_ne_one
      rw [h₂] at h
      dsimp only at h
      split_ifs at h
      · exact hall (cloneLoop_error _ _ hcounted _ s.nodup s.counted s.inUse hcloning (by simp) h)
          hcard
      · cases h
        exact hall (hcloning.rollback hcounted) hcard

/-- A machine with a region of this length. -/
def bootOf (length : BitVec 64) : BootInfo where
  memoryMap := some [⟨0x200000#64, length, 1#32⟩]
  addr := 0x10000#64
  totalSize := 0x400#32
  modules := []
  framebuffer := none

/-- Its memory at the start: the counts of the free frames are 0, and one frame has as many
references as can be counted. -/
def memoryOf (length : BitVec 64) : State where
  ptes _ := some ⟨true, false, 0⟩
  counts i := if i = 257 then 2 ^ 16 - 1 else if i < 512 then 1 else 0
  frames := FrameAllocator.init (bootOf length) 0xffffffff80150000#64

theorem counted_memoryOf (length : BitVec 64) : (memoryOf length).frames.Counted :=
  (FrameAllocator.init_spec (bootOf length) 0xffffffff80150000#64).2.1

/-- Two pages, the second of which cannot be shared once more. -/
def twoPages : AddressSpace (memoryOf 0x4000#64) where
  userMappings := [(0x40000000, 0x100000), (0x40001000, 0x101000)]
  protectionForPage _ := some .readWrite
  nodup := by decide
  counted := by decide
  inUse := by decide +kernel

def plentifulHeap : Heap := ⟨true, true, true, fun _ => true⟩

/-- The error that a clone fails with. -/
def errorOf (result : Except PagingError Clone × State) : Option PagingError :=
  match result.1 with
  | .error e => some e
  | .ok _ => none

theorem eq_of_errorOf {result : Except PagingError Clone × State} {e : PagingError}
    (h : errorOf result = some e) : result = (.error e, result.2) := by
  obtain ⟨_ | _, m'⟩ := result
  · cases h
    rfl
  · cases h

theorem cloneFullCopy_twoPages : twoPages.cloneFullCopy plentifulHeap =
    (.error .refcountOverflow, (twoPages.cloneFullCopy plentifulHeap).2) :=
  eq_of_errorOf (by decide +kernel)

/-- The first page was shared and its four tables were made, all of which is undone. -/
theorem failed_clone_rolled_back_twoPages : ∃ m', twoPages.cloneFullCopy plentifulHeap =
    (.error .refcountOverflow, m') ∧ RolledBack (memoryOf 0x4000#64) m' ∧
      SameFrames (memoryOf 0x4000#64) m' := by
  have hsame : (twoPages.cloneFullCopy plentifulHeap).2.frames.freeFrames =
      (memoryOf 0x4000#64).frames.freeFrames := by decide +kernel
  obtain ⟨hback, hframes, hnumber⟩ := failed_clone_rolled_back plentifulHeap (memoryOf 0x4000#64)
    _ _ (by decide +kernel) (counted_memoryOf 0x4000#64) twoPages cloneFullCopy_twoPages
  exact ⟨_, cloneFullCopy_twoPages, hback, hframes (hnumber.1 hsame)⟩

/-- A free frame that was used for a table has one reference afterwards. With one free frame the
clone of an empty address space fails and takes it. -/
theorem failed_clone_traces :
    (∃ m', twoPages.cloneFullCopy plentifulHeap = (.error .refcountOverflow, m') ∧
      (memoryOf 0x4000#64).frames.freeFrames = 4 ∧ m'.frames.freeFrames = 4 ∧
      (memoryOf 0x4000#64).counts 512 = 0 ∧ m'.counts 512 = 1) ∧
    ∃ m', AddressSpace.cloneFullCopy plentifulHeap (⟨[], fun _ => none, nodup_nil, nofun, nofun⟩ :
      AddressSpace (memoryOf 0x1000#64)) = (.error .outOfFrames, m') ∧
      (memoryOf 0x1000#64).frames.freeFrames = 1 ∧ m'.frames.freeFrames = 0 := by
  constructor
  · refine ⟨_, cloneFullCopy_twoPages, ?_, ?_, ?_, ?_⟩ <;> decide +kernel
  · refine ⟨_, eq_of_errorOf ?_, ?_, ?_⟩ <;> decide +kernel

end Ristux.Memory.CloneFailure
