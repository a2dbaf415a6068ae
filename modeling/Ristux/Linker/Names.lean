import Ristux.Linker.Applied
import Ristux.Linker.Closure
import Ristux.Lib.Pick

-- The table of global names holds, for each name, the strong definition that is linked, or else
-- the first weak one. A relocation uses it only if its symbol is undefined and not weak.

namespace Ristux.Linker
open Lib Fallible List Option

/-- A definition that is part of the image. -/
def isLinkedDefinition (entry : Object × Symbol) : Bool :=
  symbolIsDefinition entry.2 &&
    match isLinked entry.1 entry.2 with
    | .ok linked => linked
    | .error _ => false

/-- A definition that can be part of an image: it is absolute or in a section that is loaded. -/
def isLinkable (entry : Object × Symbol) : Bool :=
  symbolIsDefinition entry.2 &&
    (entry.2.shndx == shnAbs ||
      match entry.1.sections[entry.2.shndx]? with
      | some s => isLoadableSection s
      | none => false)

def linkedAs (name : Bytes) (entry : Object × Symbol) : Bool :=
  isLinkedDefinition entry && entry.2.name == name

def linkableAs (name : Bytes) (entry : Object × Symbol) : Bool :=
  isLinkable entry && entry.2.name == name

def isStrong (entry : Object × Symbol) : Bool := entry.2.bind != stbWeak

/-- The address of a definition. -/
def definitionValue (entry : Object × Symbol) : ℕ :=
  match symbolValue entry.1 entry.2 [] with
  | .ok value => value
  | .error _ => 0

/-- The definition that a name stands for: the strong one, of several strong ones that in the
image, or else the first weak one. -/
def resolveName (objects : List Object) (name : Bytes) : Option (Object × Symbol) :=
  ((allSymbols objects).find? fun entry => linkedAs name entry && isStrong entry).or
    (pick (linkableAs name) isStrong (allSymbols objects))

/-- The address that a name stands for: 0 if no linked object defines it. -/
def nameValue (objects : List Object) (name : Bytes) : ℕ :=
  match resolveName objects name with
  | some entry => definitionValue entry
  | none => 0

def globalOf (name : Bytes) (entry : Object × Symbol) : Global :=
  ⟨name, definitionValue entry, !isStrong entry⟩

/-- The table lists what is picked among the symbols done so far, and a strong definition is
always the one that is picked. -/
structure Tabled (done : List (Object × Symbol)) (globals : List Global) : Prop where
  find : ∀ name, globals.find? (·.name = name) =
    (pick (linkedAs name) isStrong done).map (globalOf name)
  strong : ∀ name, ∀ entry ∈ done, linkedAs name entry = true → isStrong entry = true →
    pick (linkedAs name) isStrong done = some entry

theorem tabled_nil : Tabled [] [] := ⟨fun _ => rfl, by simp⟩

variable {entry : Object × Symbol}

theorem linkedAs_self (h : isLinkedDefinition entry = true) : linkedAs entry.2.name entry = true := by
  simp [linkedAs, h]

variable {name : Bytes}

theorem linkedAs_other (h : entry.2.name ≠ name) : linkedAs name entry = false := by
  simp [linkedAs, h]

/-- One more symbol: nothing changes unless it is a linked definition, which is added. -/
theorem collectSymbolWith_cases (h : collectSymbolWith saturatingAdd globals entry = .ok globals') :
    (isLinkedDefinition entry = false ∧ globals' = globals) ∨
    (isLinkedDefinition entry = true ∧ addGlobal globals entry.2.name (definitionValue entry)
      (!isStrong entry) = .ok globals') := by
  obtain ⟨object, symbol⟩ := entry
  unfold collectSymbolWith at h
  dsimp only at h
  unfold isLinkedDefinition
  split at h
  · next hdef =>
    cases h
    exact .inl ⟨by simp_all, rfl⟩
  next hdef =>
  obtain ⟨linked, hlinked, h⟩ := bind_eq_ok.1 h
  split at h
  · next hnot =>
    cases h
    exact .inl ⟨by simp_all, rfl⟩
  next hyes =>
  obtain ⟨value, hvalue, h⟩ := bind_eq_ok.1 h
  refine .inr ⟨by simp_all, ?_⟩
  have hval : definitionValue (object, symbol) = value := by
    simp [definitionValue, symbolValue, hvalue]
  rw [hval, isStrong, bne, Bool.not_not]
  exact h

theorem pick_linkedAs (hlinked : isLinkedDefinition entry = true) (done : List (Object × Symbol))
    (name : Bytes) : pick (linkedAs name) isStrong (done ++ [entry]) =
      if entry.2.name = name then better isStrong entry (pick (linkedAs name) isStrong done)
      else pick (linkedAs name) isStrong done := by
  rw [pick_append]
  by_cases hname : entry.2.name = name
  · subst hname
    rw [if_pos (linkedAs_self hlinked), if_pos rfl]
  · rw [linkedAs_other hname, if_neg hname]
    rfl

/-- The table after one more definition, which is refused only if it is the second strong one. -/
theorem find_addGlobal (h : addGlobal globals name value weak = .ok globals') :
    (∀ other, name ≠ other → globals'.find? (·.name = other) = globals.find? (·.name = other)) ∧
    (∀ g, globals.find? (·.name = name) = some g → (g.weak || weak) = true) ∧
    globals'.find? (·.name = name) = some ((globals.find? (·.name = name)).elim
      ⟨name, value, weak⟩ fun g => if g.weak && !weak then ⟨name, value, weak⟩ else g) := by
  unfold addGlobal at h
  cases hfind : globals.find? (·.name = name) with
  | none =>
    rw [hfind] at h
    cases h
    refine ⟨fun other hne => ?_, by simp, ?_⟩
    · simp [find?_append, hne]
    · simp [find?_append, hfind]
  | some g =>
    rw [hfind] at h
    dsimp only at h
    split at h
    · next hweak =>
      cases h
      obtain ⟨hg, rfl⟩ : g.weak = true ∧ weak = false := by simpa using hweak
      have hmap : ∀ other, (globals.map fun g => if g.name = name then
          (⟨name, value, false⟩ : Global) else g).find? (·.name = other) =
          (globals.find? (·.name = other)).map fun g => if g.name = name then
            (⟨name, value, false⟩ : Global) else g := by
        intro other
        rw [find?_map]
        congr 2
        funext g
        by_cases hg : g.name = name <;> simp [hg]
      refine ⟨fun other hne => ?_, by simp [hg], ?_⟩
      · rw [hmap]
        cases hother : globals.find? (·.name = other) with
        | none => rfl
        | some g' =>
          have hg' : g'.name = other := by simpa using find?_some hother
          simp [hg', Ne.symm hne]
      · have hg' : g.name = name := by simpa using find?_some hfind
        rw [hmap, hfind]
        simp [hg, hg']
    · next hweak =>
      split at h
      · simp at h
      next hboth =>
      cases h
      refine ⟨fun _ _ => rfl, ?_⟩
      cases hg : g.weak <;> cases weak <;> simp_all

theorem Tabled.add (ht : Tabled done globals) (hlinked : isLinkedDefinition entry = true)
    (h : addGlobal globals entry.2.name (definitionValue entry) (!isStrong entry) = .ok globals') :
    Tabled (done ++ [entry]) globals' := by
  have hpick := pick_linkedAs hlinked done
  obtain ⟨hother, hweak, hself⟩ := find_addGlobal h
  rw [ht.find] at hself hweak
  refine ⟨fun name => ?_, fun name e he hdef hstrong => ?_⟩
  · rw [hpick]
    by_cases hname : entry.2.name = name
    · subst hname
      rw [if_pos rfl, hself]
      cases hold : pick (linkedAs entry.2.name) isStrong done with
      | none => rfl
      | some d =>
        cases hd : isStrong d <;> cases he : isStrong entry <;> simp [globalOf, better, hd, he]
    · rw [if_neg hname, hother name hname, ht.find]
  rw [hpick]
  rcases mem_append.1 he with he | he
  · rw [ht.strong name e he hdef hstrong]
    simp [better, hstrong]
  obtain rfl := mem_singleton.1 he
  obtain rfl : e.2.name = name := by
    simp only [linkedAs, Bool.and_eq_true, beq_iff_eq] at hdef
    exact hdef.2
  rw [if_pos rfl]
  cases hold : pick (linkedAs e.2.name) isStrong done with
  | none => rfl
  | some d =>
    have hd := hweak (globalOf e.2.name d) (by rw [hold]; rfl)
    simp only [globalOf, hstrong, Bool.not_true, Bool.or_false, Bool.not_eq_true'] at hd
    simp [better, hd, hstrong]

variable {objects : List Object}

theorem tabled_collectGlobals (h : collectGlobals objects = .ok globals) :
    Tabled (allSymbols objects) globals := by
  refine foldlM_prefix tabled_nil (fun done entry b b' _ hb hs => ?_) h
  rcases collectSymbolWith_cases hs with ⟨hnot, rfl⟩ | ⟨hlinked, hadd⟩
  · have hother : ∀ name, pick (linkedAs name) isStrong (done ++ [entry]) =
        pick (linkedAs name) isStrong done :=
      fun name => by rw [pick_append]; simp [linkedAs, hnot]
    refine ⟨fun name => by rw [hother, hb.find], fun name e he hdef hstrong => ?_⟩
    rcases mem_append.1 he with he | he
    · rw [hother]
      exact hb.strong name e he hdef hstrong
    · rw [mem_singleton.1 he, linkedAs, hnot] at hdef
      cases hdef
  · exact hb.add hlinked hadd

/-- The symbols with the index of their object. -/
def indexedSymbols (objects : List Object) : List (ℕ × Object × Symbol) :=
  objects.zipIdx.flatMap fun (object, index) =>
    object.symbols.map fun symbol => (index, object, symbol)

/-- The definition of the name that the symbol gives. -/
def definitionAs (name : Bytes) (entry : ℕ × Object × Symbol) : Option Definition :=
  if entry.2.2.name = name then definitionOf entry.1 entry.2.1 entry.2.2 else none

variable (definitions : Definitions)

def insertSymbol (entry : ℕ × Object × Symbol) : Definitions :=
  match definitionOf entry.1 entry.2.1 entry.2.2 with
  | some d => definitions.insert entry.2.2.name d
  | none => definitions

theorem collectDefinedSymbolSections_eq (objects : List Object) :
    collectDefinedSymbolSections objects = (indexedSymbols objects).foldl insertSymbol [] := by
  rw [indexedSymbols, foldl_flatMap]
  simp only [foldl_map]
  rfl

theorem get_insert (name name' : Bytes) (d : Definition) :
    (definitions.insert name d).get name' = if name = name' then
        match definitions.get name with
        | some existing => if existing.strong || !d.strong then some existing else some d
        | none => some d
      else definitions.get name' := by
  have hcons : Definitions.get ((name, d) :: definitions) name' =
      if name = name' then some d else definitions.get name' := by
    unfold Definitions.get
    by_cases hname : name = name'
    · simp [hname]
    · have hne : (name' == name) = false := by simpa using Ne.symm hname
      rw [lookup_cons, hne, if_neg hname]
  unfold Definitions.insert
  by_cases hname : name = name'
  · subst hname
    cases hget : definitions.get name with
    | none => simpa using hcons
    | some existing =>
      dsimp only
      split
      · simpa using hget
      · simpa using hcons
  cases definitions.get name with
  | none => simpa [hname] using hcons
  | some existing =>
    dsimp only
    split
    · simp
    · simpa [hname] using hcons

def strongEntry (entry : ℕ × Object × Symbol) : Bool := entry.2.2.bind == stbGlobal

theorem strong_of_definitionOf {entry : ℕ × Object × Symbol} {d : Definition}
    (h : definitionOf entry.1 entry.2.1 entry.2.2 = some d) :
    d.strong = strongEntry entry ∧ d.place = (entry.1, entry.2.2.shndx) := by
  unfold definitionOf at h
  split at h
  · cases h
  split at h
  · cases h
  split at h
  · cases h
    exact ⟨rfl, rfl⟩
  · cases h

/-- The marking looks at the strong definition in a loaded section, or else the first one. -/
theorem get_foldl_insertSymbol (entries : List (ℕ × Object × Symbol)) (name : Bytes) :
    (entries.foldl insertSymbol []).get name =
      (pick (fun e => (definitionAs name e).isSome) strongEntry entries).bind
        (definitionAs name) := by
  induction entries using List.reverseRecOn with
  | nil => rfl
  | append_singleton entries e ih =>
    rw [foldl_append, foldl_cons, foldl_nil, pick_append, insertSymbol]
    cases hd : definitionOf e.1 e.2.1 e.2.2 with
    | none =>
      have hdef : definitionAs name e = none := by simp [definitionAs, hd]
      simpa [hdef] using ih
    | some d =>
      rw [get_insert]
      by_cases hname : e.2.2.name = name
      · have hdef : definitionAs name e = some d := by rw [definitionAs, if_pos hname, hd]
        rw [if_pos hname, hname, ih, hdef, isSome_some, if_pos rfl]
        cases hpick : pick (fun e => (definitionAs name e).isSome) strongEntry entries with
        | none => exact hdef.symm
        | some c =>
          obtain ⟨dc, hdc⟩ := isSome_iff_exists.1 (pick_eq_some hpick).2
          have hdc' : definitionOf c.1 c.2.1 c.2.2 = some dc := by
            unfold definitionAs at hdc
            split at hdc
            · exact hdc
            · cases hdc
          rw [bind_some, hdc, better, ← (strong_of_definitionOf hd).1,
            ← (strong_of_definitionOf hdc').1]
          dsimp only
          split <;> simp [hdc, hdef]
      · have hdef : definitionAs name e = none := by rw [definitionAs, if_neg hname]
        simpa [hname, hdef] using ih

theorem map_indexedSymbols (objects : List Object) :
    (indexedSymbols objects).map (fun entry => (entry.2.1, entry.2.2)) = allSymbols objects := by
  unfold indexedSymbols allSymbols
  rw [map_flatMap]
  simp only [List.map_map, Function.comp_def]
  conv_rhs => rw [← zipIdx_map_fst 0 objects]
  rw [flatMap_map]

theorem indexed_of_mem {entry : ℕ × Object × Symbol} (h : entry ∈ indexedSymbols objects) :
    objects[entry.1]? = some entry.2.1 := by
  obtain ⟨⟨object, index⟩, hin, hsymbol⟩ := mem_flatMap.1 h
  obtain ⟨symbol, -, rfl⟩ := List.mem_map.1 hsymbol
  exact mem_zipIdx_iff_getElem?.1 hin

/-- The image keeps only sections that can be loaded. -/
def LiveLoadable (objects : List Object) : Prop :=
  ∀ object ∈ objects, ∀ s ∈ object.sections, s.live = true → isLoadableSection s = true

theorem isLinkable_of_linked (hlive : LiveLoadable objects) (hentry : entry ∈ allSymbols objects)
    (h : isLinkedDefinition entry = true) : isLinkable entry = true := by
  obtain ⟨object, hobject, hin⟩ := mem_flatMap.1 hentry
  obtain ⟨symbol, -, rfl⟩ := List.mem_map.1 hin
  unfold isLinkedDefinition isLinked at h
  unfold isLinkable
  by_cases habs : symbol.shndx = shnAbs
  · simp_all
  rw [if_neg habs] at h
  cases hs : object.sections[symbol.shndx]? with
  | none => simp [hs, okOr, Except.map, fail] at h
  | some s =>
    have hl : s.live = true := by simp_all [okOr, Except.map]
    have hload := hlive object hobject s (mem_of_getElem? hs) hl
    simp_all

/-- The marking knows the definitions that have a section. -/
theorem definitionAs_isSome {entry : ℕ × Object × Symbol} : (definitionAs name entry).isSome = true ↔
      linkableAs name (entry.2.1, entry.2.2) = true ∧ entry.2.2.shndx ≠ shnAbs := by
  obtain ⟨index, object, symbol⟩ := entry
  unfold definitionAs definitionOf linkableAs isLinkable
  cases hs : object.sections[symbol.shndx]? with
  | none => by_cases habs : symbol.shndx = shnAbs <;> simp [habs]
  | some s =>
    by_cases hname : symbol.name = name <;> by_cases habs : symbol.shndx = shnAbs <;>
      cases symbolIsDefinition symbol <;> simp [hname, habs]

/-- A definition in a section that is reached is part of the image. -/
theorem linkedAs_of_reached {entry : ℕ × Object × Symbol}
    (hentry : entry ∈ indexedSymbols objects) (hd : definitionAs name entry = some d)
    (hr : Reached objects d.place) : linkedAs name (entry.2.1, entry.2.2) = true := by
  have hget := indexed_of_mem hentry
  obtain ⟨index, object, symbol⟩ := entry
  unfold definitionAs at hd
  split at hd
  · have hplace := (@strong_of_definitionOf (index, object, symbol) d hd).2
    rw [hplace] at hr
    unfold definitionOf at hd
    split at hd
    · cases hd
    next hnot =>
    cases hs : object.sections[symbol.shndx]? with
    | none => simp [hs] at hd
    | some s =>
      simp only [hs] at hd
      split at hd
      · next hload =>
        have hlive := hr s (by simp [sectionAt, hget, hs]) hload
        simp_all [linkedAs, isLinkedDefinition, isLinked, okOr, Except.map]
      · cases hd
  · cases hd

theorem linkedAs_of_abs (h : linkableAs name entry = true) (habs : entry.2.shndx = shnAbs) :
    linkedAs name entry = true := by
  unfold linkableAs isLinkable at h
  unfold linkedAs isLinkedDefinition isLinked
  simp_all

theorem strongEntry_iff {entry : ℕ × Object × Symbol}
    (h : linkableAs name (entry.2.1, entry.2.2) = true) : strongEntry entry =
    isStrong (entry.2.1, entry.2.2) := by
  unfold linkableAs isLinkable symbolIsDefinition at h
  unfold strongEntry isStrong
  simp only [Bool.and_eq_true, Bool.or_eq_true, beq_iff_eq] at h
  rcases h.1.1.2 with hbind | hbind <;> rw [hbind] <;> rfl

/-- If the definition that the marking finds for a name is reached, it is in the table. -/
theorem resolveName_eq_pick (hlive : LiveLoadable objects)
    (hreached : ∀ d, (collectDefinedSymbolSections objects).get name = some d →
      Reached objects d.place) : resolveName objects name = pick (linkedAs name) isStrong
    (allSymbols objects) := by
  rw [collectDefinedSymbolSections_eq, get_foldl_insertSymbol] at hreached
  unfold resolveName
  cases hstrong : (allSymbols objects).find? fun e => linkedAs name e && isStrong e with
  | some e =>
    rw [some_or]
    simp [pick, hstrong]
  | none =>
    rw [none_or]
    have hweak : ∀ e ∈ allSymbols objects, linkedAs name e = true → isStrong e = false := by
      intro e he hdef
      have := find?_eq_none.1 hstrong e he
      simpa [hdef] using this
    have hmem : ∀ {e : ℕ × Object × Symbol}, e ∈ indexedSymbols objects →
        (e.2.1, e.2.2) ∈ allSymbols objects := fun he => by
      rw [← map_indexedSymbols]
      exact List.mem_map_of_mem he
    have himp : ∀ e ∈ allSymbols objects, linkedAs name e = true → linkableAs name e = true := by
      intro e he hdef
      simp only [linkedAs, linkableAs, Bool.and_eq_true] at hdef ⊢
      exact ⟨isLinkable_of_linked hlive he hdef.1, hdef.2⟩
    -- a strong definition would be found by the marking, be reached and so be linked
    have hnone : ∀ e ∈ indexedSymbols objects, linkableAs name (e.2.1, e.2.2) = true →
        isStrong (e.2.1, e.2.2) = false := by
      intro e he hdef
      by_contra hs
      have hs : isStrong (e.2.1, e.2.2) = true := by simpa using hs
      have habs : e.2.2.shndx ≠ shnAbs := fun habs => by
        rw [hweak _ (hmem he) (linkedAs_of_abs hdef habs)] at hs
        cases hs
      have hsome := definitionAs_isSome.2 ⟨hdef, habs⟩
      obtain ⟨c, hc⟩ : ∃ c, pick (fun e => (definitionAs name e).isSome) strongEntry
          (indexedSymbols objects) = some c := exists_pick he hsome
      obtain ⟨hcin, hcsome⟩ := pick_eq_some hc
      obtain ⟨d, hd⟩ := isSome_iff_exists.1 hcsome
      have hcs := strong_of_pick hc he hsome ((strongEntry_iff hdef).trans hs)
      have hcdef := (definitionAs_isSome.1 hcsome).1
      have hclinked := linkedAs_of_reached hcin hd (hreached d (by rw [hc]; exact hd))
      have := hweak _ (hmem hcin) hclinked
      rw [← strongEntry_iff hcdef, hcs] at this
      cases this
    have hnone' : ∀ e ∈ allSymbols objects, linkableAs name e = true → isStrong e = false := by
      intro e he hdef
      rw [← map_indexedSymbols] at he
      obtain ⟨e', he', rfl⟩ := List.mem_map.1 he
      exact hnone e' he' hdef
    rw [pick_eq_find? hnone', pick_eq_find? hweak]
    cases hfind : (allSymbols objects).find? (linkableAs name) with
    | none =>
      refine (find?_eq_none.2 fun e he hdef => ?_).symm
      exact find?_eq_none.1 hfind e he (himp e he hdef)
    | some f =>
      refine (find?_of_imp hfind ?_ himp).symm
      have hfdef := find?_some hfind
      by_cases habs : f.2.shndx = shnAbs
      · exact linkedAs_of_abs hfdef habs
      -- the first definition is the one that the marking found
      rw [← map_indexedSymbols, find?_map] at hfind
      obtain ⟨f', hf', rfl⟩ := map_eq_some_iff.1 hfind
      have hsome := definitionAs_isSome.2 ⟨hfdef, habs⟩
      obtain ⟨d, hd⟩ := isSome_iff_exists.1 hsome
      have hfirst : pick (fun e => (definitionAs name e).isSome) strongEntry
          (indexedSymbols objects) = some f' := by
        rw [pick_eq_find? fun e he hsome => ?_]
        · exact find?_of_imp hf' hsome fun e _ hsome => (definitionAs_isSome.1 hsome).1
        have hdef := (definitionAs_isSome.1 hsome).1
        rw [strongEntry_iff hdef]
        exact hnone e he hdef
      refine linkedAs_of_reached (mem_of_find?_eq_some hf') hd (hreached d ?_)
      rw [hfirst]
      exact hd

/-- A symbol that refers to a global name. -/
def Symbol.IsGlobalName (symbol : Symbol) : Prop :=
  symbol.name ≠ [] ∧ (symbol.bind = stbGlobal ∨ symbol.bind = stbWeak)

theorem Tabled.resolve (ht : Tabled (allSymbols objects) globals) (he : entry ∈ allSymbols objects)
    (hdef : linkedAs name entry = true) (hstrong : isStrong entry = true) :
    resolveName objects name = some entry := by
  have hpick := ht.strong name entry he hdef hstrong
  unfold resolveName
  cases hfind : (allSymbols objects).find? fun e => linkedAs name e && isStrong e with
  | none =>
    have := find?_eq_none.1 hfind entry he
    simp [hdef, hstrong] at this
  | some e =>
    simpa [pick, hfind] using hpick

variable {object : Object}

/-- A definition in a section that the marking has reached is linked. -/
theorem linkedAs_of_marked (hobject : objects[index]? = some object)
    (hdef : isLinkable (object, symbol) = true)
    (hreached : symbol.shndx ≠ shnAbs → Reached objects (index, symbol.shndx)) :
    linkedAs symbol.name (object, symbol) = true := by
  have hable : linkableAs symbol.name (object, symbol) = true := by simp [linkableAs, hdef]
  by_cases habs : symbol.shndx = shnAbs
  · exact linkedAs_of_abs hable habs
  unfold isLinkable at hdef
  simp only [Bool.and_eq_true, Bool.or_eq_true, beq_iff_eq, habs, false_or] at hdef
  obtain ⟨hsym, hdef⟩ := hdef
  cases hs : object.sections[symbol.shndx]? with
  | none => simp [hs] at hdef
  | some s =>
    rw [hs] at hdef
    have hlive := hreached habs s (by simp [sectionAt, hobject, hs]) hdef
    simp only [linkedAs, isLinkedDefinition, isLinked, hsym, habs, hs, okOr, if_false]
    simpa [Functor.map, Except.map] using hlive

instance (symbol : Symbol) : Decidable symbol.IsGlobalName :=
  inferInstanceAs (Decidable (_ ∧ _))

variable (l : Linked)

/-- Every reference to a global name uses the address that the name stands for. -/
def Linked.OneAddress : Prop :=
  ∀ a ∈ l.applied, a.symbol.IsGlobalName → a.symbolValue = nameValue l.objects a.symbol.name

instance (l : Linked) : Decidable l.OneAddress :=
  inferInstanceAs (Decidable (∀ a ∈ l.applied, a.symbol.IsGlobalName → _))

/-- A weak reference is to a name that no linked object defines; a weak definition that is referred
to is the one that its name stands for; a strong one is in a section that can be loaded. -/
def Linked.PlainReferences : Prop :=
  ∀ a ∈ l.applied, a.symbol.IsGlobalName → (a.symbol.shndx = shnUndef → a.symbol.bind = stbWeak →
      resolveName l.objects a.symbol.name = none) ∧
    (a.symbol.shndx ≠ shnUndef → a.symbol.bind = stbWeak →
      resolveName l.objects a.symbol.name = some (a.object, a.symbol)) ∧
    (a.symbol.shndx ≠ shnUndef → a.symbol.bind = stbGlobal → isLinkable (a.object, a.symbol) = true)

instance (l : Linked) : Decidable l.PlainReferences :=
  inferInstanceAs (Decidable (∀ a ∈ l.applied, a.symbol.IsGlobalName → _))

/-- The references that do not use the table happen to have the address of their name: 0 for a
weak reference, their own for a definition. -/
def Linked.AgreeingReferences : Prop :=
  ∀ a ∈ l.applied, a.symbol.IsGlobalName → (a.symbol.shndx = shnUndef → a.symbol.bind = stbWeak →
      nameValue l.objects a.symbol.name = 0) ∧
    (a.symbol.shndx ≠ shnUndef →
      a.symbol.bind = stbGlobal ∧ isLinkable (a.object, a.symbol) = true ∨
        definitionValue (a.object, a.symbol) = nameValue l.objects a.symbol.name)

theorem nameValue_of_some (h : resolveName objects name = some entry) :
    nameValue objects name = definitionValue entry := by
  rw [nameValue, h]

theorem Linked.PlainReferences.agreeing {l : Linked} (h : l.PlainReferences) :
    l.AgreeingReferences := by
  intro a ha hname
  obtain ⟨href, hweak, hstrong⟩ := h a ha hname
  refine ⟨fun hundef hbind => ?_, fun hundef => ?_⟩
  · rw [nameValue, href hundef hbind]
  rcases hname.2 with hbind | hbind
  · exact .inl ⟨hbind, hstrong hundef hbind⟩
  · exact .inr (nameValue_of_some (hweak hundef hbind)).symm

theorem symbolValue_of_defined (globals : List Global)
    (h : symbol.shndx ≠ shnUndef) : symbolValue object symbol globals =
    symbolValue object symbol [] := by
  simp [symbolValue, symbolValueWith, h]

variable {a : Applied}

section
variable (ha : a.Sound globals)
include ha

theorem Applied.Sound.definitionValue_eq (hdef : a.symbol.shndx ≠ shnUndef) :
    definitionValue (a.object, a.symbol) = a.symbolValue := by
  have hvalue := ha.value
  rw [symbolValue_of_defined globals hdef] at hvalue
  simp [definitionValue, hvalue]

theorem Applied.Sound.weak_eq (hundef : a.symbol.shndx = shnUndef)
    (hbind : a.symbol.bind = stbWeak) : a.symbolValue = 0 := by
  have hvalue := ha.value
  have hne : a.symbol.shndx ≠ shnAbs := by rw [hundef]; decide
  rw [Linker.symbolValue, symbolValueWith, if_neg hne, if_pos ⟨hundef, hbind⟩] at hvalue
  exact (Except.ok.inj hvalue).symm

/-- A reference through the table has the value that is picked among the linked definitions. -/
theorem Applied.Sound.table_eq (ht : Tabled (allSymbols objects) globals)
    (hundef : a.symbol.shndx = shnUndef) (hbind : a.symbol.bind ≠ stbWeak)
    (hresolve : resolveName objects a.symbol.name = pick (linkedAs a.symbol.name) isStrong
      (allSymbols objects)) : a.symbolValue = nameValue objects a.symbol.name := by
  have hvalue := ha.value
  have hne : a.symbol.shndx ≠ shnAbs := by rw [hundef]; decide
  rw [Linker.symbolValue, symbolValueWith, if_neg hne, if_neg fun hh => hbind hh.2,
    if_neg (not_not.2 hundef)] at hvalue
  have hlook := okOr_eq_ok.1 hvalue
  rw [lookupGlobal, ht.find, ← hresolve] at hlook
  unfold nameValue
  cases hpick : resolveName objects a.symbol.name with
  | none => simp [hpick] at hlook
  | some entry => simpa [hpick, globalOf] using hlook.symm

end

theorem takeWhile_subset {p q : α → Bool} (h : ∀ a, p a = true → q a = true)
    (l : List α) : l.takeWhile p ⊆ l.takeWhile q := by
  induction l with
  | nil => simp
  | cons a l ih =>
    cases hp : p a with
    | false => simp [hp]
    | true =>
      rw [takeWhile_cons_of_pos hp, takeWhile_cons_of_pos (h a hp)]
      exact cons_subset_cons a ih

/-- A relocation section for the section `index` has an entry for the symbol `k`. -/
def Relocates (object : Object) (index k : ℕ) : Prop :=
  ∃ s ∈ object.sections, s.typ = shtRela ∧ s.info = index ∧ ∃ entries,
    relaEntries object s 16 = .ok entries ∧
      ∃ rela ∈ entries, relocType rela ≠ rX8664None ∧ relocSym rela = k

theorem mem_sectionRelocSyms {object : Object} {index k : ℕ} {symbols : List ℕ}
    (h : sectionRelocSyms object index = .ok symbols) : k ∈ symbols ↔ Relocates object index k := by
  obtain ⟨lists, hlists, h⟩ := bind_eq_ok.1 h
  cases h
  constructor
  · intro hk
    obtain ⟨rela, hrela, hsym⟩ := List.mem_map.1 hk
    obtain ⟨hrela, hnone⟩ := mem_filter.1 hrela
    obtain ⟨entries, hentries, hrela⟩ := mem_flatten.1 hrela
    obtain ⟨s, hs, hread⟩ := exists_of_mem_mapM hlists hentries
    obtain ⟨hs, hfor⟩ := mem_filter.1 hs
    simp only [Bool.and_eq_true, beq_iff_eq] at hfor
    exact ⟨s, hs, hfor.1, hfor.2, entries, hread, rela, hrela, by simpa using hnone, hsym⟩
  · rintro ⟨s, hs, htyp, hinfo, entries, hread, rela, hrela, hnone, rfl⟩
    have hin : s ∈ object.sections.filter fun t => t.typ == shtRela && t.info == index :=
      mem_filter.2 ⟨hs, by simp [htyp, hinfo]⟩
    obtain ⟨entries', hmem, hread'⟩ := mem_mapM_of_mem hlists hin
    cases hread.symm.trans hread'
    exact List.mem_map_of_mem (mem_filter.2
      ⟨mem_flatten.2 ⟨entries, hmem, hrela⟩, by simpa using hnone⟩)

/-- The marking has seen every relocation that is applied. -/
theorem relocates_of_applied {object : Object} {s : Section} {entries : List Bytes} {rela : Bytes}
    (hs : s ∈ object.sections) (htyp : s.typ = shtRela)
    (hentries : relaEntries object s 24 = .ok entries) (hrela : rela ∈ entries)
    (hnone : relocType rela ≠ rX8664None) : Relocates object s.info (relocSym rela) := by
  obtain ⟨data, hdata, rfl⟩ := map_eq_ok.1 hentries
  refine ⟨s, hs, htyp, rfl, (chunks (max s.entsize 24) data).takeWhile (16 ≤ ·.length), ?_,
    rela, ?_, hnone, rfl⟩
  · rw [relaEntries, hdata]
    rfl
  · exact takeWhile_subset (fun a ha => by simp at ha ⊢; omega) _ hrela

/-- A relocation's symbol was seen by the marking. -/
theorem targetReached_of_from (hp : ∀ object ∈ selected, object.Parsed)
    (hmark : markLiveSections selected entryName = .ok objects)
    (hfrom : a.From (layoutSections objects)) : ∃ index j, (layoutSections objects)[index]? =
    some a.object ∧ a.object.symbols[j]? = some a.symbol ∧
    TargetReached (collectDefinedSymbolSections (layoutSections objects))
    (layoutSections objects) index j := by
  obtain ⟨rela, hreloc, hnone, hof⟩ := hfrom
  obtain ⟨s, entries, hs, htyp, htarget, hentries, hrela⟩ := hreloc.entry
  obtain ⟨index, hindex⟩ := mem_iff_getElem?.1 hreloc.mem
  have hat : sectionAt (layoutSections objects) (index, s.info) = some a.target := by
    simp [sectionAt, hindex, htarget]
  have hlive : a.target.live = true := by
    have hall : a.target ∈ allSections (layoutSections objects) :=
      mem_flatMap.2 ⟨a.object, hreloc.mem, hreloc.target⟩
    obtain ⟨t, -, hsame, hseg⟩ := mem_layoutSections (allMarked_markLiveSections hp hmark) hall
    rw [hreloc.segment] at hseg
    unfold destination at hseg
    split at hseg
    · next hl =>
      rw [hsame]
      exact hl
    · cases hseg
  obtain ⟨symbols, hsyms, hreached⟩ :=
    closed_linked hp hmark (index, s.info) ⟨_, hat, hlive⟩ a.object hindex
  exact ⟨index, relocSym rela, hindex, hof.symbol_eq, hreached _
    ((mem_sectionRelocSyms hsyms).2 (relocates_of_applied hs htyp hentries hrela hnone))⟩

theorem liveLoadable_layoutSections (hm : AllMarked objects) :
    LiveLoadable (layoutSections objects) := by
  intro object hobject s hs hl
  obtain ⟨t, ht, hsame, -⟩ :=
    mem_layoutSections hm (mem_flatMap.2 ⟨object, hobject, hs⟩)
  obtain ⟨o, ho, hto⟩ := mem_flatMap.1 ht
  rw [hsame] at hl ⊢
  exact (hm o ho).live t hto hl

theorem one_address_iff (inputs : List Bytes) (entryName image : Bytes)
    (h : linkObjects inputs entryName = .ok image) :
    ∃ l, link inputs entryName = .ok l ∧ image = writeElf l.segments l.entry ∧
      l.AppliesAll ∧ (l.OneAddress ↔ l.AgreeingReferences) ∧
      (l.PlainReferences → l.OneAddress) := by
  obtain ⟨l, hl, rfl⟩ := map_eq_ok.1 h
  obtain ⟨selected, objects, segments, hparsed, hmark, hobjects, hglobals, -, happly⟩ :=
    link_cases hl
  have hsound := sound_applyRelocations happly
  have htable := tabled_collectGlobals hglobals
  have hlive := liveLoadable_layoutSections (allMarked_markLiveSections hparsed hmark)
  rw [hobjects] at hsound
  have hone : l.AgreeingReferences → l.OneAddress := by
    intro hagree a ha hname
    obtain ⟨hs, hfrom⟩ := hsound a ha
    obtain ⟨hweak, hdefined⟩ := hagree a ha hname
    obtain ⟨index, j, hindex, hj, symbol, hsymbol, hown, hbyName⟩ :=
      targetReached_of_from hparsed hmark hfrom
    rw [hindex, bind_some, hj] at hsymbol
    cases hsymbol
    rw [← hobjects] at hlive hown hbyName hindex
    by_cases hundef : a.symbol.shndx = shnUndef
    · by_cases hbind : a.symbol.bind = stbWeak
      · rw [hs.weak_eq hundef hbind, hweak hundef hbind]
      · exact hs.table_eq htable hundef hbind
          (resolveName_eq_pick hlive (hbyName hundef hbind))
    rw [← hs.definitionValue_eq hundef]
    rcases hdefined hundef with ⟨hbind, hable⟩ | heq
    · -- the section of the symbol was marked, so its definition is in the table
      have hin : (a.object, a.symbol) ∈ allSymbols l.objects :=
        mem_flatMap.2 ⟨a.object, mem_of_getElem? hindex, List.mem_map_of_mem (mem_of_getElem? hj)⟩
      have hdef := linkedAs_of_marked hindex hable fun habs => hown habs hundef
      have hstrong : isStrong (a.object, a.symbol) = true := by
        simp [isStrong, hbind, stbGlobal, stbWeak]
      exact (nameValue_of_some (htable.resolve hin hdef hstrong)).symm
    · exact heq
  refine ⟨l, hl, rfl, link_appliesAll hl, ⟨fun hall a ha hname => ?_, hone⟩,
    fun hplain => hone hplain.agreeing⟩
  obtain ⟨hs, -⟩ := hsound a ha
  have hvalue := hall a ha hname
  refine ⟨fun hundef hbind => ?_, fun hundef => .inr ?_⟩
  · rw [← hvalue, hs.weak_eq hundef hbind]
  · rw [hs.definitionValue_eq hundef, hvalue]

/-- The names `_start`, `f` and `g`. -/
def optionalNames : Bytes := [0] ++ startName ++ [0, 0x66, 0, 0x67, 0]

/-- `_start` has the addresses of `f` and `g`. It refers to `f` with the binding in `info`. -/
def userOf (info : ℕ) : Bytes :=
  objectFile
    (zeros 16 ++ relaEntry 0 2 rX866464 0 ++ relaEntry 8 3 rX866464 0 ++ zeros 24 ++
      symEntry 1 0x12 1 0 16 ++ symEntry 8 info shnUndef 0 0 ++ symEntry 10 0x10 shnUndef 0 0 ++
      optionalNames)
    [zeros 64, shdr 0 shtProgbits (shfAlloc + shfExecinstr) 64 16 0 0 16 0,
      shdr 0 shtRela 0 80 48 3 1 8 24, shdr 0 shtSymtab 0 128 96 4 1 8 24,
      shdr 0 shtStrtab 0 224 optionalNames.length 0 0 1 0]

/-- The reference to `f` is weak. -/
def optionalUser : Bytes := userOf 0x20

/-- The functions `f` and `g` in one section. -/
def optionalLibrary : Bytes :=
  objectFile
    (zeros 8 ++ zeros 24 ++ symEntry 8 0x12 1 0 4 ++ symEntry 10 0x12 1 4 4 ++ optionalNames)
    [zeros 64, shdr 0 shtProgbits (shfAlloc + shfExecinstr) 64 8 0 0 16 0,
      shdr 0 shtSymtab 0 72 72 3 1 8 24, shdr 0 shtStrtab 0 144 optionalNames.length 0 0 1 0]

/-- Both objects name `f` and `g`. Each of the two relocations has the address of the function. -/
theorem one_address_iff_two_objects :
    ∃ image l, linkObjects [userOf 0x10, optionalLibrary] startName = .ok image ∧
      link [userOf 0x10, optionalLibrary] startName = .ok l ∧ l.AppliesAll ∧
      (l.applied.map fun a => (a.symbol.name, a.symbolValue)) =
        [([0x67], base + 20), ([0x66], base + 16)] ∧ l.PlainReferences ∧ l.OneAddress := by
  have hrun : (link [userOf 0x10, optionalLibrary] startName).toOption.map (fun l =>
      (decide l.PlainReferences, l.applied.map fun a => (a.symbol.name, a.symbolValue))) =
      some (true, [([0x67], base + 20), ([0x66], base + 16)]) := by decide +kernel
  cases hl : link [userOf 0x10, optionalLibrary] startName with
  | error e => simp [hl, Except.toOption] at hrun
  | ok l =>
    rw [hl] at hrun
    obtain ⟨hplain, hvalues⟩ := Prod.mk.inj (Option.some.inj hrun)
    have himage : linkObjects [userOf 0x10, optionalLibrary] startName =
        .ok (writeElf l.segments l.entry) := map_eq_ok.2 ⟨l, hl, rfl⟩
    obtain ⟨l', hl', -, hall, -, hone⟩ := one_address_iff _ _ _ himage
    cases hl.symm.trans hl'
    have hplain := of_decide_eq_true hplain
    exact ⟨_, l, himage, rfl, hall, hvalues, hplain, hone hplain⟩

/-- The weak reference to `f` uses the address 0 though `f` is in the image. -/
theorem weak_reference_unresolved :
    ∃ image l, linkObjects [optionalUser, optionalLibrary] startName = .ok image ∧
      link [optionalUser, optionalLibrary] startName = .ok l ∧ ¬l.OneAddress := by
  have hnot : ((link [optionalUser, optionalLibrary] startName).toOption.map fun l =>
      decide l.OneAddress) = some false := by decide +kernel
  cases hl : link [optionalUser, optionalLibrary] startName with
  | error e => simp [hl, Except.toOption] at hnot
  | ok l =>
    rw [hl] at hnot
    exact ⟨_, l, map_eq_ok.2 ⟨l, hl, rfl⟩, rfl, of_decide_eq_false (Option.some.inj hnot)⟩

end Ristux.Linker
