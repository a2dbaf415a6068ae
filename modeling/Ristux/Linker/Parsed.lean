import Ristux.Lib.Fallible
import Ristux.Linker.Image

-- Every object that reaches the linker was parsed from a file: its sections are neither live nor
-- placed, and its fields have the width of the file format.

namespace Ristux.Linker
open Lib Fallible List Option

@[simp] theorem fail_ne_ok : fail text ≠ (.ok a : R α) :=
  nofun

theorem okOr_eq_ok : okOr o text = .ok a ↔ o = some a := by
  cases o <;> simp [okOr]

theorem checkedAdd_eq_ok : checkedAdd a b text = .ok c ↔ a + b ≤ u64Max ∧ a + b = c := by
  unfold checkedAdd
  split <;> simp_all

theorem readField_lt (h : readField bytes offset n = .ok v) : v < 256 ^ n := by
  obtain ⟨data, hdata, rfl⟩ := map_eq_ok.1 h
  obtain ⟨rfl, -⟩ := length_of_field (okOr_eq_ok.1 hdata)
  exact leNat_lt data

/-- A section as it is read from a file. -/
structure Section.Fresh (s : Section) : Prop where
  addralign : s.addralign < 2 ^ 64
  segment : s.segment = none
  live : s.live = false

structure Object.Parsed (object : Object) : Prop where
  sections : ∀ s ∈ object.sections, s.Fresh
  symbols : ∀ symbol ∈ object.symbols, symbol.value ≤ u64Max

theorem fresh_parseSection (h : parseSection bytes off = .ok s) : s.Fresh := by
  simp only [parseSection, bind_eq_ok, pure_eq_ok] at h
  obtain ⟨typ, -, flags, -, offset, -, size, -, link, -, info, -, addralign, ha, entsize, -, rfl⟩ :=
    h
  refine ⟨?_, rfl, rfl⟩
  have hlt := readField_lt ha
  exact hlt

theorem parseSymbol_value (strings entry : Bytes) : (parseSymbol strings entry).value ≤ u64Max := by
  have hlt := leNat_lt ((entry.drop 8).take 8)
  have hlen : ((entry.drop 8).take 8).length ≤ 8 := by simp
  have hpow : 256 ^ ((entry.drop 8).take 8).length ≤ 256 ^ 8 :=
    Nat.pow_le_pow_right (by norm_num) hlen
  exact Nat.le_sub_one_of_lt (hlt.trans_le hpow)

theorem Object.Parsed.parseSymbols
    (ho : object.Parsed) (h : parseSymbols object symtab = .ok object') : object'.Parsed := by
  obtain ⟨strtab, -, h⟩ := bind_eq_ok.1 h
  split at h
  · simp at h
  simp only [bind_eq_ok, pure_eq_ok] at h
  obtain ⟨strings, -, data, -, rfl⟩ := h
  refine ⟨ho.sections, fun symbol hs => ?_⟩
  rcases mem_append.1 hs with hs | hs
  · exact ho.symbols symbol hs
  · obtain ⟨entry, -, rfl⟩ := mem_map.1 hs
    exact parseSymbol_value strings entry

variable {object : Object}

theorem parsed_parseObject (h : parseObject bytes = .ok object) : object.Parsed := by
  unfold parseObject at h
  split at h
  · simp at h
  simp only [bind_eq_ok] at h
  obtain ⟨typ, -, machine, -, h⟩ := h
  split at h
  · simp at h
  simp only [bind_eq_ok] at h
  obtain ⟨shoff, -, shentsize, -, shnum, -, h⟩ := h
  split at h
  · simp at h
  obtain ⟨sections, hsections, h⟩ := bind_eq_ok.1 h
  refine foldlM_invariant ⟨fun s hs => ?_, by simp⟩ (fun _ _ _ _ => Object.Parsed.parseSymbols) h
  obtain ⟨index, -, hindex⟩ := exists_of_mem_mapM hsections hs
  obtain ⟨off, -, hoff⟩ := bind_eq_ok.1 hindex
  split at hoff
  · simp at hoff
  · exact fresh_parseSection hoff

/-- A member lies after its header, and is an object if it is one at all. -/
theorem parseArchiveMember_eq {next : ℕ}
    (h : parseArchiveMember bytes offset = .ok (member, next)) :
    offset < next ∧ ∀ object, member = some object → object.Parsed := by
  obtain ⟨header, -, h⟩ := bind_eq_ok.1 h
  split at h
  · simp at h
  simp only [bind_eq_ok] at h
  obtain ⟨size, -, stop, hstop, data, -, payload, -, h⟩ := h
  obtain ⟨-, rfl⟩ := checkedAdd_eq_ok.1 hstop
  have hnext : offset < offset + arHeaderSize + size + size % 2 := by
    simp only [arHeaderSize]
    omega
  split at h
  · simp only [bind_eq_ok, pure_eq_ok] at h
    obtain ⟨o, ho, heq⟩ := h
    cases heq
    exact ⟨hnext, fun _ hm => some.inj hm ▸ parsed_parseObject ho⟩
  · cases h
    exact ⟨hnext, nofun⟩

theorem parsed_parseArchiveFrom : ∀ {offset : ℕ} {objects : List Object},
    parseArchiveFrom bytes fuel offset = .ok objects → ∀ object ∈ objects, object.Parsed := by
  induction fuel with
  | zero =>
    intro offset objects h
    cases h
    simp
  | succ fuel ih =>
    intro offset objects h
    unfold parseArchiveFrom at h
    split at h
    · simp only [bind_eq_ok, pure_eq_ok] at h
      obtain ⟨⟨member, next⟩, hmember, rest, hrest, rfl⟩ := h
      intro object hobject
      rcases mem_append.1 hobject with hobject | hobject
      · exact (parseArchiveMember_eq hmember).2 _ (mem_toList.1 hobject)
      · exact ih hrest object hobject
    · cases h
      simp

variable {objects : List Object}

theorem parsed_parseArchiveMembers (h : parseArchiveMembers bytes = .ok objects) :
    ∀ object ∈ objects, object.Parsed := by
  unfold parseArchiveMembers at h
  split at h
  · simp at h
  obtain ⟨members, hmembers, h⟩ := bind_eq_ok.1 h
  split at h
  · simp at h
  cases h
  exact parsed_parseArchiveFrom hmembers

theorem parsed_selectLoop : ∀ {objects members selected : List Object},
    (∀ object ∈ objects, object.Parsed) → (∀ member ∈ members, member.Parsed) →
    selectLoop roots fuel objects members = .ok selected → ∀ object ∈ selected, object.Parsed := by
  induction fuel with
  | zero =>
    intro objects members selected ho _ h
    cases h
    exact ho
  | succ fuel ih =>
    intro objects members selected ho hm h
    obtain ⟨unresolved, -, h⟩ := bind_eq_ok.1 h
    dsimp only at h
    split at h
    · cases h
      exact ho
    refine ih (fun object hobject => ?_) (fun member hmember => ?_) h
    · rcases mem_append.1 hobject with hobject | hobject
      · exact ho object hobject
      · exact hm object (mem_of_mem_filter hobject)
    · exact hm member (mem_of_mem_filter hmember)

theorem parsed_selectLinkObjects (h : selectLinkObjects inputs entryName = .ok objects) :
    ∀ object ∈ objects, object.Parsed := by
  obtain ⟨parsed, hparsed, h⟩ := bind_eq_ok.1 h
  have hall : ∀ entry ∈ parsed, (∀ object ∈ entry.1, object.Parsed) ∧
      ∀ object ∈ entry.2, object.Parsed := by
    intro entry hentry
    obtain ⟨input, -, hinput⟩ := exists_of_mem_mapM hparsed hentry
    split at hinput
    · obtain ⟨members, hmembers, rfl⟩ := map_eq_ok.1 hinput
      exact ⟨by simp, parsed_parseArchiveMembers hmembers⟩
    · obtain ⟨object, hobject, rfl⟩ := map_eq_ok.1 hinput
      exact ⟨by simpa using parsed_parseObject hobject, by simp⟩
  dsimp only at h
  split at h
  · simp at h
  obtain ⟨selected, hselected, h⟩ := bind_eq_ok.1 h
  split at h
  · simp at h
  cases h
  refine parsed_selectLoop (fun object hobject => ?_) (fun object hobject => ?_) hselected
  · obtain ⟨entry, hentry, hin⟩ := mem_flatMap.1 hobject
    exact (hall entry hentry).1 object hin
  · obtain ⟨entry, hentry, hin⟩ := mem_flatMap.1 hobject
    exact (hall entry hentry).2 object hin

theorem parsed_linkedObjects (h : linkedObjects inputs entryName = .ok objects) :
    ∀ object ∈ objects, object.Parsed := by
  obtain ⟨selected, hselected, h⟩ := bind_eq_ok.1 h
  have hparsed := parsed_selectLinkObjects hselected
  split at h
  · simp only [bind_eq_ok, pure_eq_ok] at h
    obtain ⟨crt0, hcrt0, rfl⟩ := h
    intro object hobject
    rcases mem_append.1 hobject with hobject | hobject
    · exact hparsed object hobject
    · rw [mem_singleton.1 hobject]
      exact parsed_parseObject hcrt0
  · cases h
    exact hparsed

/-- An object before the layout: only sections that can be loaded are live. -/
structure Object.Marked (object : Object) : Prop where
  addralign : ∀ s ∈ object.sections, s.addralign < 2 ^ 64
  segment : ∀ s ∈ object.sections, s.segment = none
  live : ∀ s ∈ object.sections, s.live = true → isLoadableSection s = true
  symbols : ∀ symbol ∈ object.symbols, symbol.value ≤ u64Max

theorem Object.Parsed.marked (h : object.Parsed) : object.Marked where
  addralign s hs := (h.sections s hs).addralign
  segment s hs := (h.sections s hs).segment
  live s hs hlive := by
    rw [(h.sections s hs).live] at hlive
    cases hlive
  symbols := h.symbols

theorem Object.Marked.setLive (h : object.Marked)
    (hload : ∀ s, object.sections[index]? = some s → isLoadableSection s = true) :
    (object.setLive index).Marked := by
  have hcases : ∀ s ∈ (object.setLive index).sections, s ∈ object.sections ∨
      ∃ t ∈ object.sections, isLoadableSection t = true ∧ s = { t with live := true } := by
    intro s hs
    obtain ⟨i, hi⟩ := mem_iff_getElem?.1 hs
    rw [Object.setLive, getElem?_modify] at hi
    obtain ⟨t, ht, hst⟩ := map_eq_some_iff.1 hi
    by_cases hij : index = i
    · subst hij
      exact .inr ⟨t, mem_of_getElem? ht, hload t ht, by simpa using hst.symm⟩
    · rw [if_neg hij] at hst
      exact .inl (hst ▸ mem_of_getElem? ht)
  refine ⟨fun s hs => ?_, fun s hs => ?_, fun s hs hlive => ?_, h.symbols⟩
  · rcases hcases s hs with hs | ⟨t, ht, -, rfl⟩
    · exact h.addralign s hs
    · exact h.addralign t ht
  · rcases hcases s hs with hs | ⟨t, ht, -, rfl⟩
    · exact h.segment s hs
    · exact h.segment t ht
  · rcases hcases s hs with hs | ⟨t, ht, hload, rfl⟩
    · exact h.live s hs hlive
    · exact hload

def AllMarked (objects : List Object) : Prop := ∀ object ∈ objects, object.Marked

theorem AllMarked.markSection (h : AllMarked objects) (place : Place) (work : List Place) :
    AllMarked (markSection objects place work).1 := by
  unfold Linker.markSection
  split
  · exact h
  next s hs =>
  split
  · exact h
  next hload =>
  intro object hobject
  obtain ⟨i, hi⟩ := mem_iff_getElem?.1 hobject
  rw [setLive, getElem?_modify] at hi
  obtain ⟨o, ho, heq⟩ := map_eq_some_iff.1 hi
  by_cases hij : place.1 = i
  · rw [if_pos hij] at heq
    subst heq
    refine (h o (mem_of_getElem? ho)).setLive fun t ht => ?_
    have hst : s = t := by
      simpa [sectionAt, hij, ho, ht] using hs.symm
    simp_all
  · rw [if_neg hij] at heq
    exact heq ▸ h o (mem_of_getElem? ho)

theorem AllMarked.markSymbolByName
    (h : AllMarked state.1) : AllMarked (markSymbolByName definitions name state).1 := by
  unfold Linker.markSymbolByName
  split
  · exact h.markSection _ _
  · exact h

theorem AllMarked.markRelocationTarget (h : AllMarked state.1)
    (hs : markRelocationTarget definitions objectIndex state index = .ok state') :
    AllMarked state'.1 := by
  obtain ⟨symbol, -, hs⟩ := bind_eq_ok.1 hs
  repeat' split at hs
  all_goals cases hs
  · exact h
  · exact h.markSection _ _
  · exact h
  · exact h.markSymbolByName

/-- What every step keeps holds when the loop ends. -/
theorem markLoop_invariant {P : List Object × List Place → Prop}
    (hP : ∀ {objects place work state}, P (objects, place :: work) →
      markStep definitions objects place work = .ok state → P state) :
    ∀ {objects objects' work}, P (objects, work) →
      markLoop definitions fuel objects work = .ok objects' → ∃ work', P (objects', work') := by
  induction fuel with
  | zero =>
    intro objects objects' work h hl
    cases work <;> cases hl <;> exact ⟨_, h⟩
  | succ fuel ih =>
    intro objects objects' work h hl
    cases work with
    | nil =>
      cases hl
      exact ⟨_, h⟩
    | cons place work =>
      obtain ⟨state, hstep, hrest⟩ := bind_eq_ok.1 hl
      exact ih (hP h hstep) hrest

theorem AllMarked.markStep
    (h : AllMarked objects) (hs : markStep definitions objects place work = .ok state) :
    AllMarked state.1 := by
  obtain ⟨object, -, hs⟩ := bind_eq_ok.1 hs
  obtain ⟨symbols, -, hs⟩ := bind_eq_ok.1 hs
  exact foldlM_invariant (P := fun state : List Object × List Place => AllMarked state.1) h
    (fun _ _ _ _ => AllMarked.markRelocationTarget) hs

theorem allMarked_markLiveSections (hp : ∀ object ∈ objects, object.Parsed)
    (h : markLiveSections objects entryName = .ok objects') : AllMarked objects' := by
  have hm : AllMarked objects := fun object hobject => (hp object hobject).marked
  obtain ⟨_, hm'⟩ := markLoop_invariant (P := fun state => AllMarked state.1)
    AllMarked.markStep (AllMarked.markSymbolByName hm) h
  exact hm'

end Ristux.Linker
