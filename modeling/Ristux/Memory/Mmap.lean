import Ristux.Kernel.Basic
import Ristux.Memory.StdHeap

-- `map_anonymous` of `kernel/src/memory/address_space.rs`. The search starts at a cursor, once
-- from there to the end of the window and once from the start of the window to the cursor.

namespace Ristux.Memory.Mmap
open List StdHeap

def userMmapStart : ℕ := 0x50000000
def userMmapEnd : ℕ := 0x58000000

structure LazyMapping where
  start : ℕ
  stop : ℕ
  protection : Kernel.UserProtection
  aligned : frameSize ∣ start ∧ frameSize ∣ stop
  nonempty : start < stop

/-- Pages with their frames, ranges without frames yet, and the cursor. -/
structure AddressSpace where
  userMappings : List (ℕ × ℕ)
  lazyMappings : List LazyMapping
  mmapNext : ℕ
  cursor : InPages userMmapStart userMmapEnd mmapNext

variable (s : AddressSpace) (len : ℕ)

namespace AddressSpace

def isUserMapped (page : ℕ) : Bool := s.userMappings.any fun m => m.1 = page

def lazyRangeOverlaps (start stop : ℕ) : Bool :=
  s.lazyMappings.any fun m => start < m.stop && m.start < stop

def rangeAvailable (start : ℕ) : Bool :=
  if start < userMmapStart ∨ userMmapEnd < start + len ∨ start + len ≤ start then false
  else if s.lazyRangeOverlaps start (start + len) then false
  else (pages start (start + len)).all fun page => !s.isUserMapped page

/-- The candidates are the pages from which `len` bytes end no later than `stop`. -/
def findFreeRange (start stop : ℕ) : Option ℕ :=
  (pages (roundUp start) (stop + 1 - len)).find? (s.rangeAvailable len)

def reserveMmapAddr (hint : ℕ) : Except PagingError ℕ :=
  if len = 0 ∨ userMmapEnd - userMmapStart < len then .error .notMapped
  else if hint ≠ 0 ∧ s.rangeAvailable len (pageOf hint) then .ok (pageOf hint)
  else
    let start := max (roundUp s.mmapNext) userMmapStart
    (s.findFreeRange len start userMmapEnd <|> s.findFreeRange len userMmapStart start).elim
      (.error .outOfFrames) .ok

def FreePage (page : ℕ) : Prop :=
  s.isUserMapped page = false ∧ ∀ m ∈ s.lazyMappings, ¬InPages m.start m.stop page

/-- A run of at least one page in the window. -/
structure FreeRun (base : ℕ) : Prop where
  pos : 0 < len
  aligned : frameSize ∣ base
  low : userMmapStart ≤ base
  high : base + len ≤ userMmapEnd
  free : ∀ page, InPages base (base + len) page → s.FreePage page

variable {s len} {base start stop hint : ℕ}

theorem lazyRangeOverlaps_eq_false (hpos : 0 < len) (hbase : frameSize ∣ base) :
    s.lazyRangeOverlaps base (base + len) = false ↔
      ∀ page, InPages base (base + len) page →
        ∀ m ∈ s.lazyMappings, ¬InPages m.start m.stop page := by
  simp only [lazyRangeOverlaps, any_eq_false, Bool.and_eq_true, decide_eq_true_eq, not_and]
  constructor
  · rintro h page ⟨-, hl, hh⟩ m hm ⟨-, hl', hh'⟩
    exact h m hm (hl.trans_lt hh') (hl'.trans_lt hh)
  · -- the later of the two starts is a page of both ranges
    intro h m hm hstop hstart
    have hs := m.aligned.1
    rcases Nat.le_total base m.start with hle | hle
    · exact h m.start ⟨hs, hle, hstart⟩ m hm ⟨hs, le_rfl, m.nonempty⟩
    · exact h base ⟨hbase, le_rfl, by omega⟩ m hm ⟨hbase, hle, hstop⟩

theorem rangeAvailable_iff (hbase : frameSize ∣ base) :
    s.rangeAvailable len base = true ↔ s.FreeRun len base := by
  rw [rangeAvailable]
  split_ifs with hout hover
  · refine iff_of_false not_false fun h => ?_
    have := h.pos
    have := h.low
    have := h.high
    omega
  · refine iff_of_false not_false fun h => ?_
    have hlazy := (lazyRangeOverlaps_eq_false h.pos hbase).2 fun page hp => (h.free page hp).2
    exact absurd hover (by simp [hlazy])
  · simp only [all_eq_true, mem_pages hbase, Bool.not_eq_true']
    have hpos : 0 < len := by omega
    constructor
    · intro h
      refine ⟨hpos, hbase, by omega, by omega, fun page hp => ⟨h page hp, ?_⟩⟩
      exact (lazyRangeOverlaps_eq_false hpos hbase).1 (Bool.eq_false_iff.2 hover) page hp
    · intro h page hp
      exact (h.free page hp).1

theorem dvd_userMmapStart : frameSize ∣ userMmapStart := ⟨0x50000, rfl⟩

theorem roundUp_of_dvd (h : frameSize ∣ start) : roundUp start = start := by
  simp only [roundUp, pageOf, frameSize] at *
  omega

theorem mem_candidates (hstart : frameSize ∣ start) :
    base ∈ pages (roundUp start) (stop + 1 - len) ↔
      frameSize ∣ base ∧ start ≤ base ∧ base + len ≤ stop := by
  rw [roundUp_of_dvd hstart, mem_pages hstart, InPages]
  omega

theorem findFreeRange_eq_some (hstart : frameSize ∣ start)
    (h : s.findFreeRange len start stop = some base) : s.FreeRun len base := by
  have hmem := mem_of_find?_eq_some h
  have hbase := ((mem_candidates hstart).1 hmem).1
  exact (rangeAvailable_iff hbase).1 (find?_some h)

theorem findFreeRange_eq_none (hstart : frameSize ∣ start) :
    s.findFreeRange len start stop = none ↔
      ∀ base, s.FreeRun len base → ¬(start ≤ base ∧ base + len ≤ stop) := by
  rw [findFreeRange, find?_eq_none]
  constructor
  · rintro h base hrun ⟨hl, hh⟩
    apply h base ((mem_candidates hstart).2 ⟨hrun.aligned, hl, hh⟩)
    exact (rangeAvailable_iff hrun.aligned).2 hrun
  · intro h base hmem havail
    obtain ⟨hbase, hin⟩ := (mem_candidates hstart).1 hmem
    exact h base ((rangeAvailable_iff hbase).1 havail) hin

theorem scan_start : max (roundUp s.mmapNext) userMmapStart = s.mmapNext := by
  rw [roundUp_of_dvd s.cursor.1]
  exact max_eq_left s.cursor.2.1

theorem reserveMmapAddr_eq_ok (h : s.reserveMmapAddr len hint = .ok base) : s.FreeRun len base := by
  simp only [reserveMmapAddr, scan_start] at h
  split_ifs at h with hsize hhint
  · cases h
    exact (rangeAvailable_iff (dvd_pageOf hint)).1 hhint.2
  · rcases hfind : s.findFreeRange len s.mmapNext userMmapEnd <|>
      s.findFreeRange len userMmapStart s.mmapNext with _ | candidate
    all_goals
      rw [hfind] at h
      cases h
    rcases (Option.orElse_eq_some ..).1 hfind with hfind | ⟨-, hfind⟩
    · exact findFreeRange_eq_some s.cursor.1 hfind
    · exact findFreeRange_eq_some dvd_userMmapStart hfind

/-- Without a hint the search fails when no run lies on one side of the cursor. -/
theorem reserveMmapAddr_eq_error : (∃ e, s.reserveMmapAddr len 0 = .error e) ↔
      ∀ base, s.FreeRun len base → s.mmapNext < base + len ∧ base < s.mmapNext := by
  simp only [reserveMmapAddr, scan_start, ne_eq, not_true_eq_false, false_and, if_false]
  split_ifs with hsize
  · refine iff_of_true ⟨_, rfl⟩ fun base h => ?_
    have := h.pos
    have := h.low
    have := h.high
    omega
  · have hnone : ∀ o : Option ℕ, (∃ e, o.elim (.error .outOfFrames) Except.ok =
        (.error e : Except PagingError ℕ)) ↔ o = none := by
      intro o
      cases o <;> simp
    rw [hnone, Option.orElse_eq_none, findFreeRange_eq_none s.cursor.1,
      findFreeRange_eq_none dvd_userMmapStart]
    constructor
    · rintro ⟨hafter, hbefore⟩ base hrun
      have := hafter base hrun
      have := hbefore base hrun
      have := hrun.low
      have := hrun.high
      omega
    · intro h
      refine ⟨fun base hrun hin => ?_, fun base hrun hin => ?_⟩ <;>
      · have := h base hrun
        omega

theorem cursor_wrap (hrun : s.FreeRun len base) (hlen : frameSize ∣ len) :
    InPages userMmapStart userMmapEnd
      (if userMmapEnd ≤ min (base + len) userMmapEnd then userMmapStart
        else min (base + len) userMmapEnd) := by
  split_ifs with h
  · exact ⟨dvd_userMmapStart, le_rfl, Nat.lt_of_sub_eq_succ rfl⟩
  · rw [min_eq_left hrun.high] at h ⊢
    exact ⟨Nat.dvd_add hrun.aligned hlen, hrun.low.trans (Nat.le_add_right ..), by omega⟩

theorem dvd_of_checkedAlignUp (h : checkedAlignUp stop = some len) : frameSize ∣ len := by
  rw [checkedAlignUp_eq_some h]
  exact dvd_pageOf _

def mapAnonymous (s : AddressSpace) (hint length : ℕ) (protection : Kernel.UserProtection) :
    Except PagingError (ℕ × AddressSpace) :=
  match hlen : checkedAlignUp length with
  | none => .error .notMapped
  | some len =>
    match hbase : s.reserveMmapAddr len hint with
    | .error e => .error e
    | .ok base =>
      have hrun := reserveMmapAddr_eq_ok hbase
      have hdvd := dvd_of_checkedAlignUp hlen
      .ok (base,
        { s with
          lazyMappings := s.lazyMappings ++
            [{ start := base, stop := base + len, protection := protection
               aligned := ⟨hrun.aligned, Nat.dvd_add hrun.aligned hdvd⟩
               nonempty := Nat.lt_add_of_pos_right hrun.pos }]
          mmapNext :=
            if userMmapEnd ≤ min (base + len) userMmapEnd then userMmapStart
            else min (base + len) userMmapEnd
          cursor := cursor_wrap hrun hdvd })

variable {protection : Kernel.UserProtection}

/-- The result of the call is that of the search. -/
theorem mapAnonymous_eq (hlen : frameSize ∣ len) (hbound : len < 2 ^ 64) :
    (s.mapAnonymous 0 len protection).map Prod.fst = s.reserveMmapAddr len 0 := by
  have halign : checkedAlignUp len = some len := by
    have hlt : len + (frameSize - 1) < 2 ^ 64 := by
      simp only [frameSize] at *
      omega
    rw [checkedAlignUp, checkedAdd, if_pos hlt]
    exact congrArg some (roundUp_of_dvd hlen)
  unfold mapAnonymous
  split
  · next h =>
    rw [halign] at h
    cases h
  · next len' h =>
    obtain rfl : len = len' := Option.some.inj (halign.symm.trans h)
    split
    · next he => exact he.symm
    · next hb => exact hb.symm

theorem mapAnonymous_eq_error (hlen : frameSize ∣ len) (hbound : len < 2 ^ 64) :
    (∃ e, s.mapAnonymous 0 len protection = .error e) ↔
      ∀ base, s.FreeRun len base → s.mmapNext < base + len ∧ base < s.mmapNext := by
  rw [← reserveMmapAddr_eq_error, ← mapAnonymous_eq hlen hbound]
  cases s.mapAnonymous 0 len protection <;> simp [Except.map]

/-- The call fails only without a run of free pages, and returns the start of one. -/
def FindsSpace (s : AddressSpace) (len : ℕ) (protection : Kernel.UserProtection) : Prop :=
  ((∃ e, s.mapAnonymous 0 len protection = .error e) → ¬∃ base, s.FreeRun len base) ∧
    ∀ base s', s.mapAnonymous 0 len protection = .ok (base, s') → s.FreeRun len base

/-- The call finds space when there is space, unless each run of free pages crosses the cursor. -/
theorem findsSpace_iff_run_beside_cursor (s : AddressSpace) (len : ℕ)
    (protection : Kernel.UserProtection) (hlen : frameSize ∣ len) (hbound : len < 2 ^ 64) :
    s.FindsSpace len protection ↔
      ((∃ base, s.FreeRun len base) →
        ∃ base, s.FreeRun len base ∧ (base + len ≤ s.mmapNext ∨ s.mmapNext ≤ base)) := by
  rw [FindsSpace, mapAnonymous_eq_error hlen hbound]
  constructor
  · intro h hrun
    by_contra hcross
    push Not at hcross
    exact h.1 hcross hrun
  · intro h
    constructor
    · intro hcross hrun
      obtain ⟨base, hb, hside⟩ := h hrun
      have := hcross base hb
      omega
    · intro base s' hok
      have hmap : (s.mapAnonymous 0 len protection).map Prod.fst = _ := mapAnonymous_eq hlen hbound
      rw [hok] at hmap
      exact reserveMmapAddr_eq_ok hmap.symm

/-- All pages but the two on both sides of the cursor are covered. -/
def crossed : AddressSpace where
  userMappings := []
  lazyMappings := [⟨0x50000000, 0x50001000, .readWrite, ⟨⟨0x50000, rfl⟩, 0x50001, rfl⟩, by decide⟩,
    ⟨0x50003000, 0x58000000, .readWrite, ⟨⟨0x50003, rfl⟩, 0x58000, rfl⟩, by decide⟩]
  mmapNext := 0x50002000
  cursor := ⟨⟨0x50002, rfl⟩, by decide, by decide⟩

theorem crossed_no_space :
    (∃ e, crossed.mapAnonymous 0 0x2000 .readWrite = .error e) ∧
      crossed.FreeRun 0x2000 0x50001000 := by
  constructor
  · refine (mapAnonymous_eq_error (by decide) (by decide)).2 fun base hrun => ?_
    obtain ⟨-, hdvd, hlow, hhigh, hfree⟩ := hrun
    have hfirst := (hfree base ⟨hdvd, le_rfl, by omega⟩).2 _ (mem_cons_self ..)
    have hsecond := (hfree (base + 0x1000) ⟨Nat.dvd_add hdvd ⟨1, rfl⟩, by omega, by omega⟩).2 _
      (mem_cons_of_mem _ (mem_cons_self ..))
    simp only [InPages, userMmapStart, userMmapEnd, frameSize, crossed] at *
    omega
  · refine ⟨by decide, ⟨0x50001, rfl⟩, by decide, by decide, fun page hp => ⟨rfl, fun m hm => ?_⟩⟩
    simp only [crossed, mem_cons, not_mem_nil, or_false] at hm
    rcases hm with rfl | rfl <;>
    · simp only [InPages, frameSize] at *
      omega

/-- Everything from the fourth page on is covered, and the cursor is beyond it. -/
def wrapped : AddressSpace where
  userMappings := [(0x50003000, 0x200000)]
  lazyMappings := [⟨0x50004000, 0x58000000, .readWrite, ⟨⟨0x50004, rfl⟩, 0x58000, rfl⟩, by decide⟩]
  mmapNext := 0x50005000
  cursor := ⟨⟨0x50005, rfl⟩, by decide, by decide⟩

/-- The search comes round to the three pages at the start. -/
theorem findsSpace_wrapped : wrapped.FindsSpace 0x3000 .readWrite :=
  (findsSpace_iff_run_beside_cursor _ _ _ (by decide) (by decide)).2 fun _ =>
    ⟨userMmapStart, (rangeAvailable_iff dvd_userMmapStart).1 (by decide), .inl (by decide)⟩

end AddressSpace
end Ristux.Memory.Mmap
