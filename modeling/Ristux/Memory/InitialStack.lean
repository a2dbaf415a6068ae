import Ristux.Lib.Bytes
import Ristux.Lib.Fallible
import Ristux.Lib.Fields
import Ristux.Memory.StdHeap

-- `setup_stack_in_space` of `kernel/src/process/mod.rs`. The strings and then the two arrays of
-- pointers to them are put on the stack from its top downwards.

namespace Ristux.Memory.InitialStack
open List StdHeap Lib Buf Fallible

def userStackTop : ℕ := 0x70100000
def userStackGuard : ℕ := 0x70000000
def maxUserArgs : ℕ := 64
def maxUserEnvs : ℕ := 64

inductive ExecError
  | tooManyArguments | outOfMemory
  deriving Repr, DecidableEq

structure StackSetup where
  stackTop : ℕ
  argc : ℕ
  argvPtr : ℕ
  envpPtr : ℕ
  deriving Repr, DecidableEq

/-- The pages of the stack that are mapped, all of them writable, and the bytes of memory. -/
structure Space where
  mapped : List ℕ
  memory : Buf
  stackBottom : ℕ

section
variable (allocates : ℕ → Bool) (s : Space)

def checkedSub (a b : ℕ) : Except ExecError ℕ := if b ≤ a then .ok (a - b) else .error .outOfMemory

namespace Space

/-- `allocates` says for which pages there is a frame. -/
def mapZeroPage (page : ℕ) : Except ExecError Space :=
  if allocates page then
    .ok { s with
      mapped := page :: s.mapped
      memory := fun a => if pageOf a = page then 0 else s.memory a }
  else .error .outOfMemory

def ensurePage (page : ℕ) : Except ExecError Space :=
  if page ≤ userStackGuard ∨ userStackTop < page + frameSize then .error .outOfMemory
  else do
    let s ← if page ∈ s.mapped then pure s else s.mapZeroPage allocates page
    pure { s with stackBottom := min page s.stackBottom }

def ensureStackMapping (addr len : ℕ) : Except ExecError Space :=
  match (checkedAdd addr (max len 1)).bind checkedAlignUp with
  | none => .error .outOfMemory
  | some pageEnd => (pages (pageOf addr) pageEnd).foldlM (ensurePage allocates) s

/-- Map the pages of the bytes and write them. -/
def place (addr : ℕ) (bytes : List UInt8) : Except ExecError (ℕ × Space) := do
  let s ← s.ensureStackMapping allocates addr bytes.length
  pure (addr, { s with memory := s.memory.blit addr bytes })

def pushStackString (sp : ℕ) (text : List UInt8) : Except ExecError (ℕ × Space) := do
  let sp ← checkedSub sp (text.length + 1)
  s.place allocates (sp / 16 * 16) (text ++ [0])

def pushStackStrings (s : Space) (sp : ℕ) :
    List (List UInt8) → Except ExecError (List ℕ × ℕ × Space)
  | [] => pure ([], sp, s)
  | text :: rest => do
    let (p, s) ← s.pushStackString allocates sp text
    let (ps, sp, s) ← pushStackStrings s p rest
    pure (p :: ps, sp, s)

/-- The bytes of an array of pointers. -/
def pointers (ptrs : List ℕ) : List UInt8 := (ptrs ++ [0]).flatMap (leBytes 8)

def pushPointers (sp : ℕ) (ptrs : List ℕ) : Except ExecError (ℕ × Space) := do
  let sp ← checkedSub sp (pointers ptrs).length
  s.place allocates sp (pointers ptrs)

end Space

open Space

def setupStackInSpace (memory : Buf) (args env : List (List UInt8)) :
    Except ExecError (StackSetup × Space) :=
  if maxUserArgs < args.length ∨ maxUserEnvs < env.length then .error .tooManyArguments
  else do
    let stackBottom := userStackTop - frameSize
    let s ← mapZeroPage allocates ⟨[], memory, stackBottom⟩ stackBottom
    let (argPtrs, sp, s) ← pushStackStrings allocates s userStackTop args
    let (envPtrs, sp, s) ← pushStackStrings allocates s sp env
    let (envpPtr, s) ← s.pushPointers allocates (sp / 16 * 16) envPtrs
    let (argvPtr, s) ← s.pushPointers allocates envpPtr argPtrs
    let sp ← checkedSub (argvPtr / 16 * 16) 8
    let s ← s.ensureStackMapping allocates sp 8
    pure (⟨sp, args.length, argvPtr, envpPtr⟩, s)

end

/-- An address and the bytes from there on. -/
abbrev Region := ℕ × List UInt8

def Region.Apart (r r' : Region) : Prop :=
  r.1 + r.2.length ≤ r'.1 ∨ r'.1 + r'.2.length ≤ r.1

def InStack (page : ℕ) : Prop := userStackGuard < page ∧ page + frameSize ≤ userStackTop

/-- The bytes of the region are in memory, in mapped pages. -/
def Space.Has (s : Space) (r : Region) : Prop :=
  s.memory.slice r.1 r.2.length = r.2 ∧ ∀ a, r.1 ≤ a → a < r.1 + r.2.length → pageOf a ∈ s.mapped

/-- The regions are in memory from `sp` on, apart from each other and in pages of the stack. -/
structure Space.Holds (s : Space) (sp : ℕ) (rs : List Region) : Prop where
  window : ∀ page ∈ s.mapped, InStack page
  apart : rs.Pairwise Region.Apart
  held : ∀ r ∈ rs, sp ≤ r.1 ∧ s.Has r

/-- The strings with the zero after each, where the pointers lead. -/
def strings (ptrs : List ℕ) (texts : List (List UInt8)) : List Region :=
  ptrs.zip (texts.map (· ++ [0]))

structure Space.Grows (s t : Space) : Prop where
  mapped : s.mapped ⊆ t.mapped
  memory : ∀ a, pageOf a ∈ s.mapped → t.memory a = s.memory a
  window : (∀ page ∈ s.mapped, InStack page) → ∀ page ∈ t.mapped, InStack page

namespace Space
variable {s t : Space}

theorem ensurePage_spec (h : s.ensurePage allocates page = .ok t) : s.Grows t ∧ page ∈ t.mapped := by
  unfold ensurePage at h
  split_ifs at h with hout hmem
  · obtain rfl := Except.ok.inj h
    exact ⟨⟨Subset.refl _, fun _ _ => rfl, id⟩, hmem⟩
  · obtain ⟨u, hu, h⟩ := bind_eq_ok.1 h
    obtain rfl := Except.ok.inj h
    unfold mapZeroPage at hu
    split_ifs at hu
    obtain rfl := Except.ok.inj hu
    refine ⟨⟨subset_cons_self .., fun a ha => if_neg ?_, fun hw q hq => ?_⟩, mem_cons_self ..⟩
    · rintro rfl
      exact hmem ha
    · rcases mem_cons.1 hq with rfl | hq
      · exact ⟨by omega, by omega⟩
      · exact hw q hq

theorem Grows.trans (h : s.Grows t) (h' : t.Grows u) : s.Grows u :=
  ⟨Subset.trans h.mapped h'.mapped, fun a ha => (h'.memory a (h.mapped ha)).trans (h.memory a ha),
    h'.window ∘ h.window⟩

theorem ensurePages_spec (l : List ℕ) : ∀ s, l.foldlM (ensurePage allocates) s = .ok t →
    s.Grows t ∧ ∀ page ∈ l, page ∈ t.mapped := by
  induction l with
  | nil =>
    intro s h
    obtain rfl := Except.ok.inj h
    exact ⟨⟨Subset.refl _, fun _ _ => rfl, id⟩, nofun⟩
  | cons page l ih =>
    intro s h
    obtain ⟨u, hu, h⟩ := bind_eq_ok.1 h
    obtain ⟨hgrow, hpage⟩ := ensurePage_spec hu
    obtain ⟨hgrow', hl⟩ := ih u h
    refine ⟨hgrow.trans hgrow', fun q hq => ?_⟩
    rcases mem_cons.1 hq with rfl | hq
    · exact hgrow'.mapped hpage
    · exact hl q hq

/-- The bytes of the range lie in mapped pages, and what was mapped before is not changed. -/
theorem ensureStackMapping_spec (h : s.ensureStackMapping allocates addr len = .ok t) :
    s.Grows t ∧ ∀ a, addr ≤ a → a < addr + len → pageOf a ∈ t.mapped := by
  unfold ensureStackMapping at h
  split at h
  · cases h
  next pageEnd hend =>
  obtain ⟨stop, hstop, hend⟩ := Option.bind_eq_some_iff.1 hend
  obtain rfl := checkedAlignUp_eq_some hend
  obtain ⟨hgrow, hpages⟩ := ensurePages_spec _ s h
  refine ⟨hgrow, fun a hlow hhigh => hpages _ ((mem_pages (dvd_pageOf addr)).2 ?_)⟩
  have hlt : addr + len ≤ stop := by
    rw [checkedAdd] at hstop
    split_ifs at hstop
    cases hstop
    omega
  refine ⟨dvd_pageOf a, ?_, ?_⟩
  all_goals
    simp only [roundUp, pageOf, frameSize]
    omega

theorem Holds.grow (h : s.Holds sp rs) (hg : s.Grows t) : t.Holds sp rs := by
  refine ⟨hg.window h.window, h.apart, fun r hr => ?_⟩
  obtain ⟨habove, hbytes, hmapped⟩ := h.held r hr
  refine ⟨habove, ?_, fun a hl hh => hg.mapped (hmapped a hl hh)⟩
  rwa [slice_congr fun a hl hh => hg.memory a (hmapped a hl hh)]

/-- Bytes placed below the others are one region more. -/
theorem Holds.place (h : s.Holds sp rs)
    (hle : addr + bytes.length ≤ sp) (hp : s.place allocates addr bytes = .ok r) :
    r.1 = addr ∧ r.2.Holds addr ((addr, bytes) :: rs) := by
  obtain ⟨t, ht, hp⟩ := bind_eq_ok.1 hp
  obtain rfl := Except.ok.inj hp
  obtain ⟨hgrow, hmapped⟩ := ensureStackMapping_spec ht
  have hold := h.grow hgrow
  refine ⟨rfl, hold.window, pairwise_cons.2 ⟨fun r hr => ?_, hold.apart⟩, fun r hr => ?_⟩
  · exact .inl (hle.trans (hold.held r hr).1)
  rcases mem_cons.1 hr with rfl | hr
  · exact ⟨le_rfl, slice_blit .., hmapped⟩
  · obtain ⟨habove, hbytes, hpages⟩ := hold.held r hr
    refine ⟨by omega, ?_, hpages⟩
    rwa [slice_congr fun a hl hh => blit_apply_out (.inr (by omega))]

theorem Holds.perm (h : s.Holds sp rs) (hp : rs.Perm rs') : s.Holds sp rs' :=
  ⟨h.window, (hp.pairwise_iff fun h => Or.symm h).1 h.apart,
    fun r hr => h.held r (hp.mem_iff.2 hr)⟩

theorem Holds.lower (h : s.Holds sp rs) (hle : p ≤ sp) : s.Holds p rs :=
  ⟨h.window, h.apart, fun r hr => ⟨hle.trans (h.held r hr).1, (h.held r hr).2⟩⟩

theorem checkedSub_eq_ok (h : checkedSub a b = .ok c) : c + b = a := by
  unfold checkedSub at h
  split_ifs at h
  cases h
  omega

theorem Holds.pushStackStrings : ∀ {s sp rs} {r : List ℕ × ℕ × Space},
    s.Holds sp rs → Space.pushStackStrings allocates s sp texts = .ok r →
    r.1.length = texts.length ∧ r.2.2.Holds r.2.1 (strings r.1 texts ++ rs) := by
  induction texts with
  | nil =>
    intro s sp rs r h hr
    obtain rfl := Except.ok.inj hr
    exact ⟨rfl, h⟩
  | cons text rest ih =>
    intro s sp rs r h hr
    obtain ⟨⟨p, t⟩, hp, hr⟩ := bind_eq_ok.1 hr
    obtain ⟨⟨ps, sp', u⟩, hps, hr⟩ := bind_eq_ok.1 hr
    obtain rfl := Except.ok.inj hr
    obtain ⟨q, hq, hp⟩ := bind_eq_ok.1 hp
    have hq := checkedSub_eq_ok hq
    obtain ⟨rfl, ht⟩ := h.place (by rw [length_append, length_singleton]; omega) hp
    obtain ⟨hlen, hu⟩ := ih ht hps
    exact ⟨congrArg (· + 1) hlen, hu.perm perm_middle⟩

theorem Holds.pushPointers (h : s.Holds sp rs) (hr : s.pushPointers allocates sp ptrs = .ok r) :
    r.1 + (pointers ptrs).length = sp ∧ r.2.Holds r.1 ((r.1, pointers ptrs) :: rs) := by
  obtain ⟨q, hq, hr⟩ := bind_eq_ok.1 hr
  have hq := checkedSub_eq_ok hq
  obtain ⟨rfl, ht⟩ := h.place hq.le hr
  exact ⟨hq, ht⟩

/-- The stack before anything is pushed: its last page is mapped. -/
theorem holds_mapZeroPage {allocates : ℕ → Bool} {memory : Buf} {s : Space}
    (h : mapZeroPage allocates ⟨[], memory, bottom⟩ (userStackTop - frameSize) = .ok s) :
    s.Holds userStackTop [] := by
  unfold mapZeroPage at h
  split_ifs at h
  cases h
  refine ⟨fun page hpage => ?_, .nil, nofun⟩
  rw [mem_singleton.1 hpage]
  exact ⟨by decide, by decide⟩

theorem length_pointers (ptrs : List ℕ) : (pointers ptrs).length = 8 * (ptrs.length + 1) := by
  rw [pointers, length_flatMap]
  simp [Nat.mul_comm, Nat.add_mul]

/-- The arrays end with a null pointer, each pointer in them leads to a copy of its string, and all
of them lie above the stack pointer. -/
structure WellFormed (s : Space) (setup : StackSetup) (args env : List (List UInt8)) : Prop where
  aligned : 8 ∣ setup.argvPtr ∧ 8 ∣ setup.envpPtr ∧ setup.stackTop % 16 = 8
  holds : ∃ argPtrs envPtrs, argPtrs.length = args.length ∧ envPtrs.length = env.length ∧
    s.Holds (setup.stackTop + 8) ((setup.argvPtr, pointers argPtrs) ::
      (setup.envpPtr, pointers envPtrs) :: (strings argPtrs args ++ strings envPtrs env))

end Space

open Space

/-- The call fails or leaves a well-formed stack. -/
theorem setupStackInSpace_wellFormed (allocates : ℕ → Bool) (memory : Buf)
    (args env : List (List UInt8)) :
    match setupStackInSpace allocates memory args env with
    | .error _ => True
    | .ok (setup, s) => s.WellFormed setup args env := by
  split
  · trivial
  next setup s h =>
  unfold setupStackInSpace at h
  split_ifs at h
  obtain ⟨s₀, h₀, h⟩ := bind_eq_ok.1 h
  obtain ⟨⟨argPtrs, sp₁, s₁⟩, h₁, h⟩ := bind_eq_ok.1 h
  obtain ⟨⟨envPtrs, sp₂, s₂⟩, h₂, h⟩ := bind_eq_ok.1 h
  obtain ⟨⟨envp, s₃⟩, h₃, h⟩ := bind_eq_ok.1 h
  obtain ⟨⟨argv, s₄⟩, h₄, h⟩ := bind_eq_ok.1 h
  obtain ⟨sp, hsp, h⟩ := bind_eq_ok.1 h
  obtain ⟨s₅, h₅, h⟩ := bind_eq_ok.1 h
  cases h
  obtain ⟨hargs, hs₁⟩ := (holds_mapZeroPage h₀).pushStackStrings h₁
  obtain ⟨henv, hs₂⟩ := hs₁.pushStackStrings h₂
  obtain ⟨henvp, hs₃⟩ := (hs₂.lower (Nat.div_mul_le_self sp₂ 16)).pushPointers h₃
  obtain ⟨hargv, hs₄⟩ := hs₃.pushPointers h₄
  have hs₅ := hs₄.grow (ensureStackMapping_spec h₅).1
  have hsp := checkedSub_eq_ok hsp
  rw [length_pointers] at henvp hargv
  dsimp only at henvp hargv hs₅
  have henvp8 : 8 ∣ envp := by omega
  have hargv8 : 8 ∣ argv := by omega
  have hbelow : sp + 8 ≤ argv ∧ sp % 16 = 8 := by omega
  refine ⟨⟨hargv8, henvp8, hbelow.2⟩, argPtrs, envPtrs, hargs, henv, (hs₅.lower hbelow.1).perm ?_⟩
  rw [append_nil]
  exact (perm_append_comm.cons _).cons _

example : (setupStackInSpace (fun _ => true) zero [[97, 98]] [[99]]).isOk = true := by decide

end Ristux.Memory.InitialStack
