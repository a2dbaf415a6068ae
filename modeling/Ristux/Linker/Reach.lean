import Ristux.Linker.Names

-- The selection ends when no archive member that is left defines a missing name. The marking
-- finds the sections that the entry symbol reaches along relocations, and no others.

namespace Ristux.Linker
open Lib Fallible List Option

/-- One input: an object file, or the members of an archive. -/
def parseInput (input : Bytes) : R (List Object × List Object) :=
  if field input 0 arMagic.length = some arMagic then
    (parseArchiveMembers input).map fun members => ([], members)
  else (parseObject input).map fun object => ([object], [])

def Defines (object : Object) (name : Bytes) : Prop :=
  ∃ symbol ∈ object.symbols, symbolIsDefinition symbol = true ∧ symbol.name = name

/-- A relocation of a loadable section needs the name, and no object defines it. -/
def Missing (objects : List Object) (name : Bytes) : Prop :=
  (∃ object ∈ objects, ∃ index k target symbol, Relocates object index k ∧
    object.sections[index]? = some target ∧ isLoadableSection target = true ∧
    object.symbols[k]? = some symbol ∧ symbolIsStrongUndefined symbol = true ∧
    symbol.name = name) ∧
  ∀ object ∈ objects, ¬Defines object name

theorem mem_collectDefinedNames :
    name ∈ collectDefinedNames objects ↔ ∃ object ∈ objects, Defines object name := by
  simp [collectDefinedNames, Defines, and_assoc]

variable {roots unresolved : List Bytes} {objects : List Object} {entryName name : Bytes}

/-- The symbol of an entry is among those that are read from its section. -/
theorem mem_relocSymbols {object : Object} {s : Section} {symbols : List Symbol}
    {entries : List Bytes} {rela : Bytes} {symbol : Symbol}
    (h : relocSymbols object s = .ok symbols) (hread : relaEntries object s 16 = .ok entries)
    (hrela : rela ∈ entries) (hnone : relocType rela ≠ rX8664None)
    (hsymbol : object.symbols[relocSym rela]? = some symbol) : symbol ∈ symbols := by
  obtain ⟨entries', hread', h⟩ := bind_eq_ok.1 h
  cases hread.symm.trans hread'
  obtain ⟨symbol', hmem, hsymbol'⟩ :=
    mem_mapM_of_mem h (mem_filter.2 ⟨hrela, by simpa using hnone⟩)
  cases hsymbol.symm.trans (okOr_eq_ok.1 hsymbol')
  exact hmem

theorem mem_unresolved_of_missing
    (h : collectUnresolvedNames objects (collectDefinedNames objects) roots = .ok unresolved)
    (hname : Missing objects name) : name ∈ unresolved := by
  obtain ⟨⟨object, hobject, index, k, target, symbol, hreloc, htarget, hload, hsymbol, hundef,
    rfl⟩, hnot⟩ := hname
  obtain ⟨s, hs, hrela, rfl, entries, hread, rela, hin, hnone, rfl⟩ := hreloc
  obtain ⟨names, hnames, h⟩ := bind_eq_ok.1 h
  rw [← pure_eq_ok.1 h]
  obtain ⟨sections, hsections, hat⟩ := mem_mapM_of_mem hnames hobject
  obtain ⟨missing, hmissing, hat⟩ := mem_mapM_of_mem hat hs
  have hknown : symbol.name ∉ collectDefinedNames objects := fun hmem => by
    obtain ⟨o, ho, hdef⟩ := mem_collectDefinedNames.1 hmem
    exact hnot o ho hdef
  rw [unresolvedIn, if_neg (not_not.2 hrela), htarget] at hat
  change (if isLoadableSection target then _ else _) = Except.ok missing at hat
  rw [if_pos hload] at hat
  obtain ⟨symbols, hsymbols, rfl⟩ := map_eq_ok.1 hat
  have hmem : symbol ∈ symbols := mem_relocSymbols hsymbols hread hin hnone hsymbol
  refine mem_append_right _ (mem_flatten.2
    ⟨_, mem_flatten.2 ⟨sections, hsections, hmissing⟩, ?_⟩)
  exact mem_map_of_mem (mem_filter.2 ⟨hmem, by simp [hundef, hknown]⟩)

/-- The loop adds members to the objects, and none of the members it leaves is needed. -/
theorem selectLoop_complete : ∀ {objects members selected : List Object},
    members.length < fuel → selectLoop roots fuel objects members = .ok selected →
    ∃ chosen left, selected = objects ++ chosen ∧ (chosen ++ left).Perm members ∧
      ∀ member ∈ left, ∀ name, Defines member name → ¬Missing selected name := by
  induction fuel with
  | zero => exact fun h => absurd h (Nat.not_lt_zero _)
  | succ fuel ih =>
    intro objects members selected hlen h
    obtain ⟨unresolved, hu, h⟩ := bind_eq_ok.1 h
    dsimp only at h
    split at h
    · next hnone =>
      cases h
      refine ⟨[], members, (append_nil _).symm, .refl _, fun member hm name hdef hname => ?_⟩
      obtain ⟨symbol, hs, hd, rfl⟩ := hdef
      have hneeded : objectDefinesAny member unresolved = true := by
        refine any_eq_true.2 ⟨symbol, hs, ?_⟩
        rw [hd, Bool.true_and, contains_iff_mem]
        exact mem_unresolved_of_missing hu hname
      have hin : member ∈ members.filter (objectDefinesAny · unresolved) :=
        mem_filter.2 ⟨hm, hneeded⟩
      rw [List.isEmpty_iff.1 hnone] at hin
      cases hin
    next hsome =>
    have hsplit := filter_append_perm (objectDefinesAny · unresolved) members
    have hlt := length_left_lt hsome
    obtain ⟨chosen, left, rfl, hperm, hleft⟩ := ih (by omega) h
    refine ⟨members.filter (objectDefinesAny · unresolved) ++ chosen, left,
      append_assoc _ _ _, ?_, hleft⟩
    rw [append_assoc]
    exact (hperm.append_left _).trans hsplit

/-- The strong definition of the name in a loadable section, or else the first one. -/
def preferred (objects : List Object) (name : Bytes) : Option Definition :=
  (pick (fun e => (definitionAs name e).isSome) strongEntry (indexedSymbols objects)).bind
    (definitionAs name)

theorem get_collectDefinedSymbolSections (objects : List Object) (name : Bytes) :
    (collectDefinedSymbolSections objects).get name = preferred objects name := by
  rw [collectDefinedSymbolSections_eq, get_foldl_insertSymbol]
  rfl

/-- The section that the symbol of a relocation stands for: its own, or for a name without a
definition in the object that of the preferred definition. -/
def Refers (objects : List Object) (i k : ℕ) (place : Place) : Prop :=
  ∃ symbol, (objects[i]?.bind fun object => object.symbols[k]?) = some symbol ∧
    (symbol.shndx ≠ shnAbs ∧ symbol.shndx ≠ shnUndef ∧ place = (i, symbol.shndx) ∨
      symbol.shndx = shnUndef ∧ symbol.bind ≠ stbWeak ∧
        ∃ d, preferred objects symbol.name = some d ∧ place = d.place)

inductive Reachable (objects : List Object) (entryName : Bytes) : Place → Prop where
  | entry {d : Definition} (h : preferred objects entryName = some d)
      (hload : LoadableAt objects d.place) : Reachable objects entryName d.place
  | step {source place : Place} {object : Object} {k : ℕ}
      (h : Reachable objects entryName source) (hobject : objects[source.1]? = some object)
      (hreloc : Relocates object source.2 k) (hrefers : Refers objects source.1 k place)
      (hload : LoadableAt objects place) : Reachable objects entryName place

/-- What is live and what is on the work list is reachable in the objects at the start. -/
structure Justified (objects : List Object) (entryName : Bytes)
    (state : List Object × List Place) : Prop where
  core : state.1.map Object.core = objects.map Object.core
  live : ∀ place, LiveAt state.1 place → Reachable objects entryName place
  work : ∀ place ∈ state.2, Reachable objects entryName place

variable {place : Place}

theorem Justified.markSection (h : Justified objects entryName state)
    (hplace : LoadableAt objects place → Reachable objects entryName place) :
    Justified objects entryName (markSection state.1 place state.2) := by
  unfold Linker.markSection
  split
  · exact h
  next s hs =>
  split
  · exact h
  next hskip =>
  have hload : isLoadableSection s = true := by
    cases hl : isLoadableSection s <;> simp_all
  have hreach := hplace (LoadableAt.of_core h.core ⟨s, hs, hload⟩)
  refine ⟨(core_setLive state.1 place).trans h.core, fun p hp => ?_, fun p hp => ?_⟩
  · obtain ⟨t, ht, hlive⟩ := hp
    rw [sectionAt_setLive] at ht
    obtain ⟨t', ht', rfl⟩ := map_eq_some_iff.1 ht
    by_cases hpp : place = p
    · exact hpp ▸ hreach
    · rw [if_neg hpp] at hlive
      exact h.live p ⟨t', ht', hlive⟩
  · rcases mem_cons.1 hp with rfl | hp
    · exact hreach
    · exact h.work p hp

theorem Justified.markPlace (h : Justified objects entryName state)
    (hplace : ∀ place ∈ o, LoadableAt objects place → Reachable objects entryName place) :
    Justified objects entryName (markPlace state o) := by
  cases o with
  | none => exact h
  | some place => exact h.markSection (hplace place rfl)

/-- One section from the work list: the sections it refers to are reachable as it is. -/
theorem Justified.markStep {work : List Place}
    (h : Justified objects entryName (marked, place :: work))
    (hs : markStep (collectDefinedSymbolSections objects) marked place work = .ok state) :
    Justified objects entryName state := by
  obtain ⟨object, hobject, hs⟩ := bind_eq_ok.1 hs
  obtain ⟨symbols, hsymbols, hs⟩ := bind_eq_ok.1 hs
  obtain ⟨object', hobject', heq⟩ :=
    relocSyms_of_core h.core place (okOr_eq_ok.1 hobject)
  have hstart : Justified objects entryName (marked, work) :=
    ⟨h.core, h.live, (forall_mem_cons.1 h.work).2⟩
  refine foldlM_invariant hstart (fun k hk b b' hb hstep => ?_) hs
  obtain ⟨symbol, hsymbol, rfl⟩ := markRelocationTarget_eq hstep
  rw [symbols_of_core hb.core] at hsymbol
  refine hb.markPlace fun p hp hload => ?_
  rw [mem_referredPlace, get_collectDefinedSymbolSections] at hp
  exact .step (h.work place mem_cons_self) hobject'
    ((mem_sectionRelocSyms (heq.trans hsymbols)).1 hk) ⟨symbol, hsymbol, hp⟩ hload

variable {marked : List Object}

theorem Reached.liveAt (hcore : marked.map Object.core = objects.map Object.core)
    (h : Reached marked place) (hload : LoadableAt objects place) : LiveAt marked place := by
  obtain ⟨s, hs, hl⟩ := LoadableAt.of_core hcore.symm hload
  exact ⟨s, hs, h s hs hl⟩

/-- The marking finds what is reachable, and only that. -/
theorem liveAt_iff_reachable (hp : ∀ object ∈ objects, object.Parsed)
    (h : markLiveSections objects entryName = .ok marked) :
    LiveAt marked place ↔ Reachable objects entryName place := by
  have hstart : Justified objects entryName (objects, []) :=
    ⟨rfl, fun p hlive => absurd hlive (not_liveAt_of_parsed hp p), by simp⟩
  have hentry : Justified objects entryName
      (markSymbolByName (collectDefinedSymbolSections objects) entryName (objects, [])) := by
    rw [markSymbolByName_eq, get_collectDefinedSymbolSections]
    refine hstart.markPlace fun p hp hload => ?_
    obtain ⟨d, hd, rfl⟩ := map_eq_some_iff.1 hp
    exact .entry hd hload
  obtain ⟨_, hend⟩ := markLoop_invariant Justified.markStep hentry h
  refine ⟨hend.live place, fun hr => ?_⟩
  obtain ⟨hcore, hentry, hclosed⟩ := closed_markLiveSections hp h
  simp only [get_collectDefinedSymbolSections] at hentry
  induction hr with
  | entry hd hload => exact (hentry _ hd).liveAt hcore hload
  | @step source place object k _ hobject hreloc hrefers hload ih =>
    obtain ⟨object', hobject', heq⟩ := relocSyms_of_core hcore.symm source hobject
    obtain ⟨symbols, hsymbols, hall⟩ := hclosed source ih object' hobject'
    rw [heq] at hsymbols
    obtain ⟨symbol, hsymbol, hown, hname⟩ := hall k ((mem_sectionRelocSyms hsymbols).2 hreloc)
    obtain ⟨symbol', hsymbol', hto⟩ := hrefers
    rw [symbols_of_core hcore, hsymbol'] at hsymbol
    cases hsymbol
    refine Reached.liveAt hcore ?_ hload
    rcases hto with ⟨habs, hdef, rfl⟩ | ⟨hundef, hweak, d, hd, rfl⟩
    · exact hown habs hdef
    · exact hname hundef hweak d ((get_collectDefinedSymbolSections _ _).trans hd)

/-- The rounds of the selection and of the archive parser end, no archive member that is left defines a missing name, and
the marking finds exactly what is reachable from the entry. -/
theorem selection_and_marking_exact (inputs : List Bytes) (entryName : Bytes) :
    (∀ roots objects members fuel, members.length < fuel → selectLoop roots fuel objects members =
        selectLoop roots (members.length + 1) objects members) ∧
    (∀ bytes offset fuel, bytes.length < fuel → parseArchiveFrom bytes fuel offset =
        parseArchiveFrom bytes (bytes.length + 1) offset) ∧
    ∀ objects, selectLinkObjects inputs entryName = .ok objects →
      (∃ parsed chosen left, inputs.mapM parseInput = .ok parsed ∧
        objects = parsed.flatMap (·.1) ++ chosen ∧ (chosen ++ left).Perm (parsed.flatMap (·.2)) ∧
        ∀ member ∈ left, ∀ name, Defines member name → ¬Missing objects name) ∧
      ∀ marked, markLiveSections objects entryName = .ok marked →
        ∀ place, LiveAt marked place ↔ Reachable objects entryName place := by
  refine ⟨fun roots objects members fuel hlen => selectLoop_fuel roots hlen (Nat.lt_succ_self _),
    fun bytes offset fuel hlen => parseArchiveFrom_fuel bytes hlen (by omega), fun objects h => ⟨?_, fun marked hm place =>
      liveAt_iff_reachable (parsed_selectLinkObjects h) hm⟩⟩
  obtain ⟨parsed, hparsed, h⟩ := bind_eq_ok.1 h
  dsimp only at h
  split at h
  · cases h
  obtain ⟨selected, hselected, h⟩ := bind_eq_ok.1 h
  split at h
  · cases h
  cases h
  obtain ⟨chosen, left, heq, hperm, hleft⟩ := selectLoop_complete (Nat.lt_succ_self _) hselected
  exact ⟨parsed, chosen, left, hparsed, heq, hperm, hleft⟩

/-- `_start` has a relocation of the type `R_X86_64_NONE` that names `g`. -/
def quietUser : Bytes :=
  objectFile
    (zeros 16 ++ relaEntry 0 2 rX8664None 0 ++ zeros 24 ++ symEntry 1 0x12 1 0 16 ++
      symEntry 10 0x10 shnUndef 0 0 ++ optionalNames)
    [zeros 64, shdr 0 shtProgbits (shfAlloc + shfExecinstr) 64 16 0 0 16 0,
      shdr 0 shtRela 0 80 24 3 1 8 24, shdr 0 shtSymtab 0 104 72 4 1 8 24,
      shdr 0 shtStrtab 0 176 optionalNames.length 0 0 1 0]

def quietObjects : List Object :=
  ((selectLinkObjects [quietUser, optionalLibrary] startName).toOption).getD []

theorem selection_and_marking_exact_quiet : ∀ place,
    LiveAt (((markLiveSections quietObjects startName).toOption).getD []) place ↔
      Reachable quietObjects startName place :=
  ((selection_and_marking_exact [quietUser, optionalLibrary] startName).2.2 quietObjects
    (by decide +kernel)).2 _ (by decide +kernel)

/-- The relocation is an entry of the live section, and the section with `g` is not marked. -/
theorem none_relocation_not_followed :
    selectLinkObjects [quietUser, optionalLibrary] startName = .ok quietObjects ∧
      (quietObjects[0]?.bind fun object => object.sections[2]?.map fun s =>
        (s.typ, s.info, relaEntries object s 16)) =
        some (shtRela, 1, .ok [relaEntry 0 2 rX8664None 0]) ∧
      Refers quietObjects 0 (relocSym (relaEntry 0 2 rX8664None 0)) (1, 1) ∧
      (sectionAt quietObjects (1, 1)).map isLoadableSection = some true ∧
      ((markLiveSections quietObjects startName).map fun marked =>
        ((sectionAt marked (0, 1)).map (·.live), (sectionAt marked (1, 1)).map (·.live))) =
      .ok (some true, some false) := by
  refine ⟨by decide +kernel, by decide +kernel, ⟨⟨[0x67], 0x10, shnUndef, 0⟩, by decide +kernel,
    .inr ⟨rfl, by decide, ⟨(1, 1), true⟩, by decide +kernel, rfl⟩⟩, by decide +kernel,
    by decide +kernel⟩

end Ristux.Linker
