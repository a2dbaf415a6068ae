import Ristux.Memory.Frames

-- `System` hands out the memory between the old and the new break, with one atomic variable,
-- `HEAP_END`, for all threads. A thread moves the break before the compare-and-swap that decides
-- whether the memory is its own.

namespace Ristux.Memory.StdHeap
open List hiding count
open Function Nat

def userHeapStart : ℕ := 0x60000000
def userHeapEnd : ℕ := 0x68000000

def checkedAdd (a b : ℕ) : Option ℕ := if a + b < 2 ^ 64 then some (a + b) else none

/-- The start of the page an address is in. -/
def pageOf (addr : ℕ) : ℕ := addr / frameSize * frameSize

def roundUp (addr : ℕ) : ℕ := pageOf (addr + (frameSize - 1))

def checkedAlignUp (addr : ℕ) : Option ℕ := (checkedAdd addr (frameSize - 1)).map pageOf

/-- The pages from `start` to `stop`. -/
def pages (start stop : ℕ) : List ℕ :=
  (List.range ((stop - start + (frameSize - 1)) / frameSize)).map fun i => start + i * frameSize

abbrev Page := ℕ → BitVec 8

structure AddressSpace where
  heapBreak : ℕ
  mem : ℕ → Option Page

namespace AddressSpace

def isUserMapped (s : AddressSpace) (page : ℕ) : Bool := (s.mem page).isSome

def set (s : AddressSpace) (page : ℕ) (v : Option Page) : AddressSpace :=
  { s with mem := update s.mem page v }

/-- The loop that shrinks the heap. -/
def shrinkLoop (s : AddressSpace) (l : List ℕ) : AddressSpace :=
  l.foldl (fun s page => if s.isUserMapped page then s.set page none else s) s

/-- The loop that grows the heap, while there are frames; the pages in `mapped` are its own. -/
def growLoop : ℕ → List ℕ → List ℕ → AddressSpace → Bool × AddressSpace
  | _, _, [], s => (true, s)
  | frames, mapped, page :: rest, s =>
    if s.isUserMapped page then growLoop frames mapped rest s
    else
      match frames with
      | 0 => (false, mapped.foldl (fun s page => s.set page none) s)
      | frames + 1 => growLoop frames (mapped ++ [page]) rest (s.set page (some fun _ => 0))

/-- `grow_heap`, with so many frames left. What it returns does not matter to `linux_brk`. -/
def growHeap (s : AddressSpace) (newBreak frames : ℕ) : AddressSpace :=
  if newBreak < userHeapStart then s
  else
    match checkedAlignUp newBreak, checkedAlignUp s.heapBreak with
    | some aligned, some oldAligned =>
      if userHeapEnd < aligned then s
      else if aligned < oldAligned then
        { s.shrinkLoop (pages aligned oldAligned) with heapBreak := newBreak }
      else
        match s.growLoop frames [] (pages oldAligned aligned) with
        | (true, s) => { s with heapBreak := newBreak }
        | (false, s) => s
    | _, _ => s

/-- A read by user code; `none` is a fault. -/
def load (s : AddressSpace) (addr : ℕ) : Option (BitVec 8) :=
  (s.mem (pageOf addr)).map fun page => page (addr - pageOf addr)

def store (s : AddressSpace) (addr : ℕ) (byte : BitVec 8) : Option AddressSpace :=
  (s.mem (pageOf addr)).map fun page =>
    s.set (pageOf addr) (some (update page (addr - pageOf addr) byte))

/-- `linux_brk`: the break after the call. -/
def linuxBrk (s : AddressSpace) (newBreak frames : ℕ) : ℕ × AddressSpace :=
  if newBreak = 0 then (s.heapBreak, s)
  else
    let s := s.growHeap newBreak frames
    (s.heapBreak, s)

end AddressSpace

/-- `core::alloc::Layout`. -/
structure Layout where
  size : ℕ
  align : ℕ
  power : ∃ k, align = 2 ^ k
  bound : size + align ≤ 2 ^ 63

/-- `Layout::from_size_align` with the alignment of a layout. -/
def Layout.withSize (l : Layout) (size : ℕ) : Option Layout :=
  if h : size + l.align ≤ 2 ^ 63 then some ⟨size, l.align, l.power, h⟩ else none

/-- `align_up` of the allocator; the alignment is a power of two, so the mask of the source clears
the remainder. -/
def alignUpTo (value align : ℕ) : Option ℕ :=
  (checkedAdd value (max align 1 - 1)).map fun v => v / max align 1 * max align 1

/-- Where a block goes that is placed after `current`, and where it ends. -/
def place (current : ℕ) (layout : Layout) : Option (ℕ × ℕ) := do
  let start ← alignUpTo current layout.align
  let stop ← checkedAdd start (max layout.size 1)
  pure (start, stop)

/-- A call of `alloc`, or of `realloc` with the address and the number of the bytes to copy. -/
structure Call where
  layout : Layout
  source : Option (ℕ × ℕ)

inductive Pc where
  | idle
  | load (call : Call)
  | askBreak (call : Call)
  | raise (call : Call) (observed current : ℕ)
  | swap (call : Call) (observed start stop : ℕ)
  | copy (source target done count : ℕ)

structure Block where
  start : ℕ
  size : ℕ
  deriving DecidableEq

def Block.Has (b : Block) (addr : ℕ) : Prop := b.start ≤ addr ∧ addr < b.start + b.size

/-- The memory that the threads share, the variable `HEAP_END`, where each thread is, the blocks
returned so far, and what was last written to the addresses in them. -/
structure State where
  mem : AddressSpace
  heapEnd : ℕ
  pc : ℕ → Pc
  blocks : List Block
  written : ℕ → Option (BitVec 8)

def State.initial (m : AddressSpace) : State := ⟨m, 0, fun _ => .idle, [], fun _ => none⟩

def State.goto (s : State) (tid : ℕ) (pc : Pc) : State :=
  { s with pc := update s.pc tid pc }

/-- A byte is stored; a fault ends the process. -/
def State.store (s : State) (addr : ℕ) (byte : BitVec 8) : Option State :=
  (s.mem.store addr byte).map fun mem =>
    { s with mem, written := update s.written addr (some byte) }

/-- The next step of a thread inside a call. -/
def advance (tid : ℕ) (frames : ℕ) (s : State) : Option State :=
  match s.pc tid with
  | .idle => none
  | .load call =>
    some (s.goto tid (if s.heapEnd = 0 then .askBreak call else .raise call s.heapEnd s.heapEnd))
  | .askBreak call => some (s.goto tid (.raise call 0 (s.mem.linuxBrk 0 frames).1))
  | .raise call observed current =>
    match place current call.layout with
    | none => some (s.goto tid .idle)
    | some (start, stop) =>
      let r := s.mem.linuxBrk stop frames
      let s := { s with mem := r.2 }
      some (s.goto tid (if r.1 < stop then .idle else .swap call observed start stop))
  | .swap call observed start stop =>
    if s.heapEnd = observed then
      let block : Block := ⟨start, call.layout.size⟩
      let s := { s with heapEnd := stop, blocks := block :: s.blocks }
      some (s.goto tid (match call.source with
        | none => .idle
        | some (source, count) => .copy source start 0 count))
    else some (s.goto tid (.load call))
  | .copy source target done count =>
    if done < count then
      match s.mem.load (source + done) with
      | some byte => (s.goto tid (.copy source target (done + 1) count)).store (target + done) byte
      | none => none
    else some (s.goto tid .idle)

inductive Action where
  | alloc (tid : ℕ) (layout : Layout)
  | realloc (tid : ℕ) (block : Block) (layout : Layout) (newSize : ℕ)
  | write (block : Block) (offset : ℕ) (byte : BitVec 8)
  | run (tid : ℕ) (frames : ℕ)

/-- One step. `realloc` and stores are for blocks that were returned. -/
def step (s : State) : Action → Option State
  | .alloc tid layout =>
    match s.pc tid with
    | .idle => some (s.goto tid (.load ⟨layout, none⟩))
    | _ => none
  | .realloc tid block layout newSize =>
    match s.pc tid with
    | .idle =>
      if block ∈ s.blocks ∧ block.size = layout.size then
        match layout.withSize newSize with
        | some newLayout =>
          some (s.goto tid (.load ⟨newLayout, some (block.start, min layout.size newSize)⟩))
        | none => some s
      else none
    | _ => none
  | .write block offset byte =>
    if block ∈ s.blocks ∧ offset < block.size then s.store (block.start + offset) byte else none
  | .run tid frames => advance tid frames s

/-- The runs whose steps are all allowed. -/
inductive Run (ok : State → Action → Prop) (s : State) : State → Prop
  | refl : Run ok s s
  | step {t t' : State} {a : Action} : Run ok s t → ok t a → step t a = some t' → Run ok s t'

/-- Every block returned is mapped and holds what was written to it, and no two overlap. -/
structure Safe (s : State) : Prop where
  mapped : ∀ b ∈ s.blocks, ∀ a, b.Has a → ∃ page, s.mem.mem (pageOf a) = some page ∧
      ∀ v, s.written a = some v → page (a - pageOf a) = v
  disjoint : s.blocks.Pairwise fun b c => ∀ a, ¬(b.Has a ∧ c.Has a)

/-- A page lies between two addresses. -/
def InPages (start stop p : ℕ) : Prop := frameSize ∣ p ∧ start ≤ p ∧ p < stop

instance (start stop p : ℕ) : Decidable (InPages start stop p) :=
  inferInstanceAs (Decidable (_ ∧ _ ∧ _))

/-- The heap of a process that has just been loaded. -/
def NewHeap (m : AddressSpace) : Prop :=
  m.heapBreak = userHeapStart ∧ ∀ p, InPages userHeapStart userHeapEnd p → m.mem p = none

/-- A thread about to move the break to `stop` does not move it below `HEAP_END`, nor below what
another thread asked for that can still win the compare-and-swap. -/
def KeepsBreak (s : State) : Action → Prop
  | .run tid _ => ∀ call observed current start stop, s.pc tid = .raise call observed current →
      place current call.layout = some (start, stop) →
      s.heapEnd ≤ roundUp stop ∧ ∀ other call' start' stop',
        s.pc other = .swap call' s.heapEnd start' stop' → stop' ≤ roundUp stop
  | _ => True

theorem le_roundUp (a : ℕ) : a ≤ roundUp a := by
  simp only [roundUp, pageOf, frameSize]
  omega

theorem pageOf_le (a : ℕ) : pageOf a ≤ a := div_mul_le_self ..

theorem dvd_pageOf (a : ℕ) : frameSize ∣ pageOf a := Nat.dvd_mul_left ..

variable {start stop current tid : ℕ} {m : AddressSpace} {blocks blocks' : List Block} {s : State}

theorem mem_pages (hstart : frameSize ∣ start) :
    p ∈ pages start stop ↔ InPages start stop p := by
  rw [pages, mem_map]
  simp only [InPages, mem_range, frameSize] at *
  constructor
  · rintro ⟨i, hi, rfl⟩
    omega
  · intro hp
    exact ⟨(p - start) / 4096, by omega, by omega⟩

theorem checkedAlignUp_eq_some (h : checkedAlignUp addr = some aligned) : aligned = roundUp addr := by
  rw [checkedAlignUp, checkedAdd] at h
  split_ifs at h
  · exact (Option.some.inj h).symm
  · cases h

namespace AddressSpace

theorem set_mem (s : AddressSpace) (page p : ℕ) (v : Option Page) :
    (s.set page v).mem p = if p = page then v else s.mem p := update_apply ..

/-- The pages of `l` that were not mapped hold zeros. -/
def fill (s : AddressSpace) (l : List ℕ) : AddressSpace :=
  { s with mem := fun p => if p ∈ l ∧ s.mem p = none then some fun _ => 0 else s.mem p }

/-- The pages of `l` are gone. -/
def drop (s : AddressSpace) (l : List ℕ) : AddressSpace :=
  { s with mem := fun p => if p ∈ l then none else s.mem p }

theorem foldl_set_none (s : AddressSpace) (l : List ℕ) :
    l.foldl (fun s page => s.set page none) s = s.drop l := by
  induction l generalizing s with
  | nil => simp [drop]
  | cons page rest ih =>
    rw [foldl_cons, ih, drop, drop, AddressSpace.mk.injEq]
    refine ⟨rfl, funext fun p => ?_⟩
    rw [set_mem]
    split_ifs <;> simp_all

theorem shrinkLoop_eq (s : AddressSpace) (l : List ℕ) : s.shrinkLoop l = s.drop l := by
  rw [← foldl_set_none, shrinkLoop]
  congr
  funext s page
  split_ifs with h
  · rfl
  · have hnone : s.mem page = none := by simpa [isUserMapped] using h
    rw [set, ← hnone, update_eq_self]

/-- The loop maps all pages, or leaves the space it began with. -/
theorem growLoop_fill (base : AddressSpace) (l : List ℕ) :
    ∀ frames mapped, (∀ p ∈ mapped, base.mem p = none) →
      growLoop frames mapped l (base.fill mapped) = (true, base.fill (mapped ++ l)) ∨
        growLoop frames mapped l (base.fill mapped) = (false, base) := by
  induction l with
  | nil =>
    intro frames mapped _
    rw [growLoop, append_nil]
    exact .inl rfl
  | cons page rest ih =>
    intro frames mapped hmapped
    rw [growLoop.eq_def]
    dsimp only
    split_ifs with hpage
    · have hskip : base.fill (mapped ++ page :: rest) = base.fill (mapped ++ rest) := by
        rw [fill, fill, AddressSpace.mk.injEq]
        refine ⟨rfl, funext fun p => if_congr ?_ rfl rfl⟩
        refine and_congr_left fun hnone => ?_
        have hne : p = page → p ∈ mapped := by
          rintro rfl
          by_contra hp
          simp [isUserMapped, fill, hnone, hp] at hpage
        simp only [mem_append, mem_cons]
        tauto
      rw [hskip]
      exact ih frames mapped hmapped
    have hnone : base.mem page = none := by
      rw [isUserMapped, fill] at hpage
      dsimp only at hpage
      split_ifs at hpage with hp
      · exact hp.2
      · simpa using hpage
    cases frames with
    | zero =>
      right
      dsimp only
      rw [foldl_set_none]
      congr 1
      rw [drop, fill]
      dsimp only
      congr 1
      funext p
      split_ifs with hp hp'
      · exact (hmapped p hp).symm
      · exact absurd hp'.1 hp
      · rfl
    | succ frames =>
      have hset : (base.fill mapped).set page (some fun _ => 0) = base.fill (mapped ++ [page]) := by
        rw [set, fill, fill, AddressSpace.mk.injEq]
        refine ⟨rfl, funext fun p => ?_⟩
        by_cases hp : p = page <;> simp [hp, hnone]
      rw [hset, append_cons mapped page rest]
      refine ih frames (mapped ++ [page]) fun p hp => ?_
      obtain hp | hp := mem_append.1 hp
      · exact hmapped p hp
      · rw [mem_singleton.1 hp]
        exact hnone

end AddressSpace

section
variable {m : AddressSpace}

/-- The pages of the heap below the break are mapped, the others are not. -/
structure Arranged (m : AddressSpace) : Prop where
  low : userHeapStart ≤ m.heapBreak
  high : roundUp m.heapBreak ≤ userHeapEnd
  inside : ∀ p, InPages userHeapStart (roundUp m.heapBreak) p → ∃ page, m.mem p = some page
  outside : ∀ p, InPages (roundUp m.heapBreak) userHeapEnd p → m.mem p = none

theorem NewHeap.arranged (h : NewHeap m) : Arranged m := by
  obtain ⟨hbreak, hmem⟩ := h
  have hround : roundUp m.heapBreak = userHeapStart := by rw [hbreak]; decide
  refine ⟨hbreak.ge, by rw [hround]; decide, fun p hp => ?_, fun p hp => hmem p (hround ▸ hp)⟩
  obtain ⟨-, hle, hlt⟩ := hp
  omega

theorem inPages_pageOf (hlow : userHeapStart ≤ addr) (hlt : addr < stop) :
    InPages userHeapStart stop (pageOf addr) := by
  refine ⟨dvd_pageOf addr, ?_, (pageOf_le addr).trans_lt hlt⟩
  simp only [userHeapStart, pageOf, frameSize] at *
  omega

section
variable (h : Arranged m) (hlow : userHeapStart ≤ newBreak)
include h hlow

theorem Arranged.shrink (hlt : roundUp newBreak < roundUp m.heapBreak) :
    Arranged { m.drop (pages (roundUp newBreak) (roundUp m.heapBreak)) with
      heapBreak := newBreak } := by
  have hmem := @mem_pages (roundUp newBreak) (roundUp m.heapBreak)
  refine ⟨hlow, hlt.le.trans h.high, fun p hp => ?_, fun p hp => ?_⟩ <;>
    simp only [AddressSpace.drop, hmem (dvd_pageOf _)]
  · rw [if_neg fun hin => absurd hp.2.2 hin.2.1.not_gt]
    exact h.inside p ⟨hp.1, hp.2.1, hp.2.2.trans hlt⟩
  · split_ifs with hin
    · rfl
    · exact h.outside p ⟨hp.1, not_lt.1 fun h' => hin ⟨hp.1, hp.2.1, h'⟩, hp.2.2⟩

theorem Arranged.grow (hhigh : roundUp newBreak ≤ userHeapEnd)
    (hle : roundUp m.heapBreak ≤ roundUp newBreak) :
    Arranged { m.fill (pages (roundUp m.heapBreak) (roundUp newBreak)) with
      heapBreak := newBreak } := by
  have hmem := @mem_pages (roundUp m.heapBreak) (roundUp newBreak)
  refine ⟨hlow, hhigh, fun p hp => ?_, fun p hp => ?_⟩ <;>
    simp [AddressSpace.fill, hmem (dvd_pageOf _)]
  · by_cases hlt : p < roundUp m.heapBreak
    · rw [if_neg fun hin => absurd hlt hin.1.2.1.not_gt]
      exact h.inside p ⟨hp.1, hp.2.1, hlt⟩
    have hge := not_lt.1 hlt
    rw [if_pos ⟨⟨hp.1, hge, hp.2.2⟩, h.outside p ⟨hp.1, hge, hp.2.2.trans_le hhigh⟩⟩]
    exact ⟨_, rfl⟩
  · rw [if_neg fun hin => absurd hin.1.2.2 hp.2.1.not_gt]
    exact h.outside p ⟨hp.1, hle.trans hp.2.1, hp.2.2⟩

end

/-- What a call of `brk` leaves: the heap as it was, or the break at the address asked for and the
contents of every page that was and still is below it. -/
theorem growHeap_spec (h : Arranged m) (newBreak frames : ℕ) :
    m.growHeap newBreak frames = m ∨ Arranged (m.growHeap newBreak frames) ∧
      (m.growHeap newBreak frames).heapBreak = newBreak ∧
      ∀ p, p < roundUp newBreak → p < roundUp m.heapBreak →
        (m.growHeap newBreak frames).mem p = m.mem p := by
  rw [AddressSpace.growHeap]
  split_ifs with hlow
  · exact .inl rfl
  cases haligned : checkedAlignUp newBreak with
  | none => exact .inl rfl
  | some aligned =>
    cases hold : checkedAlignUp m.heapBreak with
    | none => exact .inl rfl
    | some oldAligned =>
      obtain rfl := checkedAlignUp_eq_some haligned
      obtain rfl := checkedAlignUp_eq_some hold
      dsimp only
      split_ifs with hhigh hshrink
      · exact .inl rfl
      · right
        rw [AddressSpace.shrinkLoop_eq]
        refine ⟨h.shrink (not_lt.1 hlow) hshrink, rfl, fun p hp _ => if_neg fun hin => ?_⟩
        exact absurd hp ((mem_pages (dvd_pageOf _)).1 hin).2.1.not_gt
      have hempty : m.fill [] = m := by simp [AddressSpace.fill]
      have hgrow := AddressSpace.growLoop_fill m (pages (roundUp m.heapBreak) (roundUp newBreak))
        frames [] nofun
      rw [hempty, nil_append] at hgrow
      obtain hgrow | hgrow := hgrow <;> rw [hgrow]
      · right
        refine ⟨h.grow (not_lt.1 hlow) (not_lt.1 hhigh) (not_lt.1 hshrink), rfl,
          fun p _ hp => if_neg fun hin => ?_⟩
        exact absurd hp ((mem_pages (dvd_pageOf _)).1 hin.1).2.1.not_gt
      · exact .inl rfl

end

def CallOk (blocks : List Block) (call : Call) : Prop :=
  ∀ source count, call.source = some (source, count) →
    count ≤ call.layout.size ∧ ∃ b ∈ blocks, b.start = source ∧ count ≤ b.size

def PcOk (blocks : List Block) (heapEnd : ℕ) : Pc → Prop
  | .idle => True
  | .load call | .askBreak call => CallOk blocks call
  | .raise call observed current =>
    CallOk blocks call ∧ observed ≤ heapEnd ∧ observed ≤ current ∧ userHeapStart ≤ current
  | .swap call observed start stop =>
    CallOk blocks call ∧ observed ≤ heapEnd ∧ observed ≤ start ∧ userHeapStart ≤ start ∧
      stop = start + max call.layout.size 1
  | .copy source target _ count =>
    (∃ b ∈ blocks, b.start = source ∧ count ≤ b.size) ∧
      ∃ b ∈ blocks, b.start = target ∧ count ≤ b.size

/-- `HEAP_END` only grows, so a thread whose compare-and-swap succeeds places its block after all
others; `raised` says that the memory is still there. -/
structure Inv (s : State) : Prop where
  heap : Arranged s.mem
  top : s.heapEnd ≤ roundUp s.mem.heapBreak
  low : s.heapEnd ≠ 0 → userHeapStart ≤ s.heapEnd
  within : ∀ b ∈ s.blocks, userHeapStart ≤ b.start ∧ b.start + b.size ≤ s.heapEnd
  disjoint : s.blocks.Pairwise fun b c => ∀ a, ¬(b.Has a ∧ c.Has a)
  bytes : ∀ a v, s.written a = some v → userHeapStart ≤ a ∧ a < s.heapEnd ∧
    ∃ page, s.mem.mem (pageOf a) = some page ∧ page (a - pageOf a) = v
  calls : ∀ tid, PcOk s.blocks s.heapEnd (s.pc tid)
  raised : ∀ tid call start stop, s.pc tid = .swap call s.heapEnd start stop →
    stop ≤ roundUp s.mem.heapBreak

section
theorem Inv.initial (h : NewHeap m) : Inv (.initial m) where
  heap := h.arranged
  top := zero_le _
  low := fun h => absurd rfl h
  within := nofun
  disjoint := .nil
  bytes := nofun
  calls := fun _ => trivial
  raised := nofun

/-- The page of a heap address below `HEAP_END`. -/
theorem Inv.page (h : Inv s) (hlow : userHeapStart ≤ a) (hlt : a < s.heapEnd) :
    ∃ page, s.mem.mem (pageOf a) = some page :=
  h.heap.inside _ (inPages_pageOf hlow (hlt.trans_le h.top))

theorem Inv.safe (h : Inv s) : Safe s := by
  refine ⟨fun b hb a ha => ?_, h.disjoint⟩
  obtain ⟨hstart, hstop⟩ := h.within b hb
  obtain ⟨page, hpage⟩ := h.page (hstart.trans ha.1) (ha.2.trans_le hstop)
  refine ⟨page, hpage, fun v hv => ?_⟩
  obtain ⟨-, -, page', hpage', hbyte⟩ := h.bytes a v hv
  rw [hpage] at hpage'
  cases hpage'
  exact hbyte

theorem Inv.goto (h : Inv s) (hpc : PcOk s.blocks s.heapEnd pc)
    (hraised : ∀ call start stop, pc = .swap call s.heapEnd start stop →
      stop ≤ roundUp s.mem.heapBreak) : Inv (s.goto tid pc) := by
  refine { h with calls := fun other => ?_, raised := fun other call start stop hother => ?_ }
  · change PcOk s.blocks s.heapEnd (update s.pc tid pc other)
    by_cases ho : other = tid
    · rw [ho, update_self]
      exact hpc
    · rw [update_of_ne ho]
      exact h.calls other
  change update s.pc tid pc other = _ at hother
  by_cases ho : other = tid
  · rw [ho, update_self] at hother
    exact hraised call start stop hother
  · rw [update_of_ne ho] at hother
    exact h.raised other call start stop hother

theorem Inv.store (h : Inv s) (byte : BitVec 8) (hlow : userHeapStart ≤ a) (hlt : a < s.heapEnd)
    (hs : s.store a byte = some s') : Inv s' := by
  obtain ⟨page, hpage⟩ := h.page hlow hlt
  have hin := inPages_pageOf hlow (hlt.trans_le h.top)
  rw [State.store, AddressSpace.store, hpage] at hs
  cases hs
  refine { h with heap := ⟨h.heap.low, h.heap.high, fun p hp => ?_, fun p hp => ?_⟩
                  bytes := fun a' v hv => ?_ }
  · rw [AddressSpace.set_mem]
    split_ifs with hpa
    · exact ⟨_, rfl⟩
    · exact h.heap.inside p hp
  · rw [AddressSpace.set_mem, if_neg fun hpa => absurd hin.2.2 (hpa ▸ hp.2.1).not_gt]
    exact h.heap.outside p hp
  rw [AddressSpace.set_mem]
  change update s.written a (some byte) a' = some v at hv
  by_cases haa : a' = a
  · rw [haa, update_self] at hv
    cases hv
    rw [haa, if_pos rfl]
    exact ⟨hlow, hlt, _, rfl, update_self ..⟩
  rw [update_of_ne haa] at hv
  obtain ⟨hlow', hlt', page', hpage', hbyte⟩ := h.bytes a' v hv
  refine ⟨hlow', hlt', ?_⟩
  split_ifs with hsame
  · refine ⟨_, rfl, ?_⟩
    rw [hsame, hpage] at hpage'
    cases hpage'
    have hne : a' - pageOf a' ≠ a - pageOf a := by
      have := pageOf_le a
      have := pageOf_le a'
      omega
    rw [update_of_ne hne]
    exact hbyte
  · exact ⟨page', hpage', hbyte⟩

theorem le_of_alignUpTo (h : alignUpTo value align = some start) : value ≤ start := by
  rw [alignUpTo, checkedAdd] at h
  split_ifs at h with hlt
  · cases h
    have hpos : 0 < max align 1 := by omega
    have := lt_div_mul_add (a := value + (max align 1 - 1)) hpos
    dsimp only
    omega
  · cases h

theorem place_spec (h : place current layout = some (start, stop)) :
    current ≤ start ∧ stop = start + max layout.size 1 := by
  obtain ⟨start', hstart, h⟩ := Option.bind_eq_some_iff.1 h
  obtain ⟨stop', hstop, h⟩ := Option.bind_eq_some_iff.1 h
  cases h
  rw [checkedAdd] at hstop
  split_ifs at hstop
  cases hstop
  exact ⟨le_of_alignUpTo hstart, rfl⟩

theorem Inv.moved (h : Inv s) (hend : s.heapEnd ≤ roundUp stop)
    (hothers : ∀ other call start stop', s.pc other = .swap call s.heapEnd start stop' →
      stop' ≤ roundUp stop) (hm' : Arranged m') (hbreak : m'.heapBreak = stop)
    (hsame : ∀ p, p < roundUp stop → p < roundUp s.mem.heapBreak → m'.mem p = s.mem.mem p) :
    Inv { s with mem := m' } := by
  refine { h with heap := hm', top := hbreak ▸ hend, bytes := fun a v hv => ?_,
                  raised := fun other call start stop' hother => ?_ }
  · obtain ⟨hlow, hlt, page, hpage, hbyte⟩ := h.bytes a v hv
    have hle := pageOf_le a
    refine ⟨hlow, hlt, page, ?_, hbyte⟩
    rw [hsame _ (by omega) (by have := h.top; omega)]
    exact hpage
  · rw [hbreak]
    exact hothers other call start stop' hother

/-- Moving the break. -/
theorem Inv.raise (frames : ℕ) (h : Inv s) (hpc : s.pc tid = .raise call observed current)
    (hplace : place current call.layout = some (start, stop))
    (hkeeps : KeepsBreak s (.run tid frames)) :
    Inv (State.goto { s with mem := (s.mem.linuxBrk stop frames).2 } tid
      (if (s.mem.linuxBrk stop frames).1 < stop then .idle
        else .swap call observed start stop)) := by
  obtain ⟨hend, hothers⟩ := hkeeps call observed current start stop hpc hplace
  obtain ⟨hcurrent, hstop⟩ := place_spec hplace
  obtain ⟨hcall, hobserved, hle, hlow⟩ : PcOk _ _ (.raise call observed current) :=
    hpc ▸ h.calls tid
  have hbrk : s.mem.linuxBrk stop frames =
      ((s.mem.growHeap stop frames).heapBreak, s.mem.growHeap stop frames) :=
    if_neg (by omega)
  rw [hbrk]
  have hinv : Inv { s with mem := s.mem.growHeap stop frames } := by
    obtain heq | ⟨harr, hbreak, hsame⟩ := growHeap_spec h.heap stop frames
    · rw [heq]
      exact h
    · exact h.moved hend hothers harr hbreak hsame
  split_ifs with hshort
  · exact hinv.goto trivial nofun
  refine hinv.goto ⟨hcall, hobserved, hle.trans hcurrent, hlow.trans hcurrent, hstop⟩ ?_
  rintro _ _ _ ⟨⟩
  exact (not_lt.1 hshort).trans (le_roundUp _)

theorem CallOk.mono (h : CallOk blocks call) (hsub : blocks ⊆ blocks') : CallOk blocks' call := by
  intro source count hsource
  obtain ⟨hcount, b, hb, hfits⟩ := h source count hsource
  exact ⟨hcount, b, hsub hb, hfits⟩

theorem PcOk.mono (h : PcOk blocks heapEnd pc) (hsub : blocks ⊆ blocks')
    (hle : heapEnd ≤ heapEnd') : PcOk blocks' heapEnd' pc := by
  cases pc with
  | idle => trivial
  | load call => exact CallOk.mono h hsub
  | askBreak call => exact CallOk.mono h hsub
  | raise call observed current =>
    obtain ⟨hcall, hobserved, hrest⟩ := h
    exact ⟨hcall.mono hsub, hobserved.trans hle, hrest⟩
  | swap call observed start stop =>
    obtain ⟨hcall, hobserved, hrest⟩ := h
    exact ⟨hcall.mono hsub, hobserved.trans hle, hrest⟩
  | copy source target done count =>
    obtain ⟨⟨b, hb, hsource⟩, c, hc, htarget⟩ := h
    exact ⟨⟨b, hsub hb, hsource⟩, c, hsub hc, htarget⟩

/-- The compare-and-swap that succeeds. -/
theorem Inv.win (h : Inv s) (hpc : s.pc tid = .swap call s.heapEnd start stop) :
    Inv { s with heapEnd := stop, blocks := ⟨start, call.layout.size⟩ :: s.blocks } := by
  obtain ⟨-, -, hle, hlow, hstop⟩ : PcOk _ _ (.swap call s.heapEnd start stop) := hpc ▸ h.calls tid
  have hlt : s.heapEnd < stop := by omega
  refine { h with top := h.raised tid call start stop hpc, low := fun _ => by dsimp only; omega,
                  within := fun b hb => ?_, disjoint := pairwise_cons.2 ⟨?_, h.disjoint⟩,
                  bytes := fun a v hv => ?_, calls := fun other => ?_,
                  raised := fun other call' start' stop' hother => ?_ }
  · dsimp only
    obtain rfl | hb := mem_cons.1 hb
    · exact ⟨hlow, by dsimp only; omega⟩
    · obtain ⟨hstart, hend⟩ := h.within b hb
      exact ⟨hstart, by omega⟩
  · rintro c hc a ⟨hnew, hold⟩
    have hend := (h.within c hc).2
    have hge : start ≤ a := hnew.1
    have := hold.2
    omega
  · obtain ⟨halow, halt, hpage⟩ := h.bytes a v hv
    exact ⟨halow, halt.trans hlt, hpage⟩
  · exact (h.calls other).mono (subset_cons_self _ _) hlt.le
  · have hother' := h.calls other
    rw [show s.pc other = .swap call' stop start' stop' from hother] at hother'
    exact absurd hother'.2.1 hlt.not_ge

theorem Inv.advance (h : Inv s) (hkeeps : KeepsBreak s (.run tid frames))
    (hs : advance tid frames s = some s') : Inv s' := by
  have hok := h.calls tid
  rw [StdHeap.advance] at hs
  cases hpc : s.pc tid with
  | idle =>
    rw [hpc] at hs
    cases hs
  | load call =>
    rw [hpc] at hs hok
    cases hs
    split_ifs with hzero
    · exact h.goto hok nofun
    · exact h.goto ⟨hok, le_rfl, le_rfl, h.low hzero⟩ nofun
  | askBreak call =>
    rw [hpc] at hs hok
    cases hs
    exact h.goto ⟨hok, zero_le _, zero_le _, h.heap.low⟩ nofun
  | raise call observed current =>
    rw [hpc] at hs hok
    cases hplace : place current call.layout with
    | none =>
      simp only [hplace] at hs
      cases hs
      exact h.goto trivial nofun
    | some r =>
      simp only [hplace] at hs
      cases hs
      exact h.raise frames hpc hplace hkeeps
  | swap call observed start stop =>
    rw [hpc] at hs hok
    dsimp only at hs
    split_ifs at hs with hwin
    · cases hs
      subst hwin
      have hinv := h.win hpc
      cases hsource : call.source with
      | none => exact hinv.goto trivial nofun
      | some r =>
        obtain ⟨hcount, b, hb, hfits⟩ := hok.1 r.1 r.2 hsource
        exact hinv.goto ⟨⟨b, mem_cons_of_mem _ hb, hfits⟩, _, mem_cons_self, rfl, hcount⟩
          nofun
    · cases hs
      exact h.goto hok.1 nofun
  | copy source target done count =>
    rw [hpc] at hs hok
    dsimp only at hs
    split_ifs at hs with hdone
    · obtain ⟨⟨b, hb, rfl, hsource⟩, c, hc, rfl, htarget⟩ := hok
      obtain ⟨hblow, hbend⟩ := h.within b hb
      obtain ⟨hclow, hcend⟩ := h.within c hc
      have hread : userHeapStart ≤ b.start + done := by omega
      obtain ⟨page, hpage⟩ := h.page hread (by omega)
      rw [AddressSpace.load, hpage] at hs
      have hinv : Inv (s.goto tid (.copy b.start c.start (done + 1) count)) :=
        h.goto ⟨⟨b, hb, rfl, hsource⟩, c, hc, rfl, htarget⟩ nofun
      refine hinv.store _ ?_ ?_ hs
      · omega
      · change c.start + done < s.heapEnd
        omega
    · cases hs
      exact h.goto trivial nofun

/-- One step keeps the invariant. -/
theorem Inv.step (h : Inv s) (hkeeps : KeepsBreak s action)
    (hs : step s action = some s') : Inv s' := by
  cases action with
  | alloc tid layout =>
    rw [StdHeap.step] at hs
    split at hs
    · cases hs
      exact h.goto nofun nofun
    · cases hs
  | realloc tid block layout newSize =>
    rw [StdHeap.step] at hs
    split at hs
    · split_ifs at hs with hblock
      rw [Layout.withSize] at hs
      split_ifs at hs with hfits
      · cases hs
        refine h.goto ?_ nofun
        rintro _ _ ⟨⟩
        exact ⟨min_le_right _ _, block, hblock.1, rfl, by omega⟩
      · cases hs
        exact h
    · cases hs
  | write block offset byte =>
    rw [StdHeap.step] at hs
    split_ifs at hs with hblock
    obtain ⟨hlow, hend⟩ := h.within block hblock.1
    exact h.store byte (by omega) (by omega) hs
  | run tid frames => exact h.advance hkeeps hs

theorem Run.inv (hm : NewHeap m) (h : Run KeepsBreak (.initial m) s) : Inv s := by
  induction h with
  | refl => exact Inv.initial hm
  | step _ hkeeps hs ih => exact ih.step hkeeps hs

end

/-- Every run in which the break is only moved to where `HEAP_END` and the threads that can still
win allow keeps the heap safe. -/
theorem heap_safe {m : AddressSpace} (hm : NewHeap m) {s : State}
    (h : Run KeepsBreak (.initial m) s) : Safe s := (h.inv hm).safe

/-- A process with nothing mapped. -/
def emptyMap : AddressSpace := ⟨userHeapStart, fun _ => none⟩

def byteLayout : Layout := ⟨1, 1, ⟨0, rfl⟩, by decide⟩

def twoPages : Layout := ⟨8192, 1, ⟨0, rfl⟩, by decide⟩

theorem newHeap_emptyMap : NewHeap emptyMap := ⟨rfl, fun _ _ => rfl⟩

/-- A run of these actions, as long as each is one that is meant. -/
def exec (check : State → Action → Bool) (s : State) (actions : List Action) : Option State :=
  actions.foldlM (fun s a => if check s a then step s a else none) s

theorem Run.exec {ok : State → Action → Prop} {check : State → Action → Bool} {s t t' : State}
    (h : Run ok s t) (hok : ∀ s a, check s a → ok s a) (actions : List Action)
    (hexec : exec check t actions = some t') : Run ok s t' := by
  induction actions generalizing t with
  | nil =>
    cases hexec
    exact h
  | cons a rest ih =>
    obtain ⟨u, hu, hrest⟩ := Option.bind_eq_some_iff.1 hexec
    dsimp only at hu
    split_ifs at hu with ha
    exact ih (h.step (hok t a ha) hu) hrest

/-- The action does not move the break. -/
def State.leavesBreak (s : State) : Action → Bool
  | .run tid _ =>
    match s.pc tid with
    | .raise _ _ _ => false
    | _ => true
  | _ => true

theorem keepsBreak_of_leavesBreak (s : State) (a : Action) (h : s.leavesBreak a) :
    KeepsBreak s a := by
  cases a with
  | run tid frames =>
    intro call observed current start stop hpc
    rw [State.leavesBreak, hpc] at h
    cases h
  | _ => trivial

theorem keepsBreak_of_raise {s : State} {tid : ℕ} {call : Call} {observed current start stop : ℕ}
    (hpc : s.pc tid = .raise call observed current)
    (hplace : place current call.layout = some (start, stop)) (hend : s.heapEnd ≤ roundUp stop)
    (hother : ∀ n call' start' stop', s.pc n = .swap call' s.heapEnd start' stop' →
      stop' ≤ roundUp stop) (frames : ℕ) : KeepsBreak s (.run tid frames) := by
  intro call₁ observed₁ current₁ start₁ stop₁ hpc₁ hplace₁
  rw [hpc] at hpc₁
  cases hpc₁
  rw [hplace] at hplace₁
  cases hplace₁
  exact ⟨hend, hother⟩

/-- Two threads ask for a byte at the same time. The second loses, after it has moved the break as
well, and tries again when the first has written to its byte. -/
theorem heap_safe_racing : ∃ s, Run KeepsBreak (.initial emptyMap) s ∧
    s.blocks = [⟨userHeapStart + 1, 1⟩, ⟨userHeapStart, 1⟩] ∧ s.written userHeapStart = some 7 ∧
    Safe s := by
  have hrun : ∃ s, Run KeepsBreak (.initial emptyMap) s ∧
      s.blocks = [⟨userHeapStart + 1, 1⟩, ⟨userHeapStart, 1⟩] ∧ s.written userHeapStart = some 7 := by
    have hquiet := keepsBreak_of_leavesBreak
    have hasked : Run KeepsBreak (.initial emptyMap) _ := Run.refl.exec hquiet
      [.alloc 0 byteLayout, .alloc 1 byteLayout, .run 0 9, .run 1 9, .run 0 9, .run 1 9] rfl
    have hraised : Run KeepsBreak (.initial emptyMap) _ :=
      hasked.step (a := .run 0 9) (keepsBreak_of_raise rfl rfl (by decide) (fun n _ _ _ hn => by
        rcases n with _ | _ | n <;> cases hn) 9) rfl
    have hboth : Run KeepsBreak (.initial emptyMap) _ :=
      hraised.step (a := .run 1 9) (keepsBreak_of_raise rfl rfl (by decide) (fun n _ _ _ hn => by
        rcases n with _ | _ | n <;> cases hn
        decide) 9) rfl
    have hlost : Run KeepsBreak (.initial emptyMap) _ := hboth.exec hquiet
      [.run 0 9, .write ⟨userHeapStart, 1⟩ 0 7, .run 1 9, .run 1 9] rfl
    have hagain : Run KeepsBreak (.initial emptyMap) _ :=
      hlost.step (a := .run 1 9) (keepsBreak_of_raise rfl rfl (by decide) (fun n _ _ _ hn => by
        rcases n with _ | _ | n <;> cases hn) 9) rfl
    exact ⟨_, hagain.exec hquiet [.run 1 9] rfl, rfl, rfl⟩
  obtain ⟨s, hs, hblocks, hwritten⟩ := hrun
  exact ⟨s, hs, hblocks, hwritten, heap_safe newHeap_emptyMap hs⟩

/-- Both threads find `HEAP_END` unset. The first gets two pages; then the second, which still
goes by the old break, moves the break down to its one byte. -/
def race : List Action :=
  [.alloc 0 twoPages, .alloc 1 byteLayout, .run 0 9, .run 1 9, .run 0 9, .run 1 9,
    .run 0 9, .run 0 9, .write ⟨userHeapStart, 8192⟩ 8191 7, .run 1 9]

theorem race_unmaps : (exec (fun _ _ => true) (.initial emptyMap) race).map (fun s =>
    (s.blocks, s.written (userHeapStart + 8191), (s.mem.mem (userHeapStart + 4096)).isSome)) =
      some ([⟨userHeapStart, 8192⟩], some 7, false) := by
  decide +kernel

theorem stale_brk_unmaps_block : ∃ m s, NewHeap m ∧ Run (fun _ _ => True) (.initial m) s ∧
    ¬ Safe s := by
  obtain ⟨s, hs, hfacts⟩ := Option.map_eq_some_iff.1 race_unmaps
  obtain ⟨hblocks, hrest⟩ := Prod.mk.inj hfacts
  refine ⟨emptyMap, s, newHeap_emptyMap, Run.refl.exec (fun _ _ _ => trivial) race hs, fun hsafe => ?_⟩
  obtain ⟨page, hpage, -⟩ := hsafe.mapped ⟨userHeapStart, 8192⟩ (by rw [hblocks]; simp)
    (userHeapStart + 8191) ⟨by simp, by simp⟩
  have hunmapped : (s.mem.mem (userHeapStart + 4096)).isSome = false := congrArg Prod.snd hrest
  rw [show pageOf (userHeapStart + 8191) = userHeapStart + 4096 by decide] at hpage
  rw [hpage] at hunmapped
  cases hunmapped

end Ristux.Memory.StdHeap
