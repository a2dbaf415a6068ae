import Ristux.Linker.Placement
import Ristux.Linker.Rounds

-- When the marking ends, every relocation of a live section refers to live sections: the section
-- of its symbol, or the one where its name is defined.

namespace Ristux.Linker
open Lib Fallible List Option Section

/-- A section without its address, segment and mark. -/
def Section.core (s : Section) : Section :=
  { s with outAddr := 0, segment := none, live := false }

def Object.core (object : Object) : Object :=
  { object with sections := object.sections.map Section.core }

variable {α : Type}

theorem filter_mapM_core {f g : Section → R α} {sections : List Section}
    (hp : ∀ s, p s.core = p s) (hf : ∀ s, f s.core = g s) :
    ((sections.map Section.core).filter p).mapM f = (sections.filter p).mapM g := by
  induction sections with
  | nil => rfl
  | cons s sections ih =>
    rw [map_cons, filter_cons, filter_cons, hp]
    split
    · rw [mapM_cons, mapM_cons, ih, hf]
    · exact ih

theorem sectionRelocSyms_core (object : Object) (index : ℕ) :
    sectionRelocSyms object.core index = sectionRelocSyms object index := by
  unfold sectionRelocSyms
  rw [Object.core, filter_mapM_core (fun _ => rfl) fun _ => rfl]
  rfl

theorem definitionOf_core (index : ℕ) (object : Object) (symbol : Symbol) :
    definitionOf index object.core symbol = definitionOf index object symbol := by
  unfold definitionOf
  split
  · rfl
  · rw [Object.core, getElem?_map]
    cases object.sections[symbol.shndx]? <;> rfl

theorem collectDefinedSymbolSections_core (objects : List Object) :
    collectDefinedSymbolSections (objects.map Object.core) =
      collectDefinedSymbolSections objects := by
  unfold collectDefinedSymbolSections
  rw [zipIdx_map, foldl_map]
  refine congrArg (fun f => foldl f [] objects.zipIdx) ?_
  funext definitions ⟨object, index⟩
  simp only [Prod.map, id_eq, definitionOf_core]
  rfl

theorem map_modify_of_comp (h : ∀ a, g (f a) = g a) (l : List α)
    (i : ℕ) : (l.modify i f).map g = l.map g := by
  refine ext_getElem? fun j => ?_
  rw [getElem?_map, getElem?_modify, getElem?_map]
  cases l[j]? with
  | none => rfl
  | some a => by_cases hij : i = j <;> simp [hij, h]

theorem core_setLive (objects : List Object) (place : Place) :
    (setLive objects place).map Object.core = objects.map Object.core := by
  refine map_modify_of_comp (fun object => ?_) objects place.1
  simp only [Object.core, Object.setLive]
  congr 1
  refine map_modify_of_comp (fun s => ?_) _ _
  rfl

variable {g : Section → α}

theorem map_layoutSectionsOf (hg : ∀ s addr kind, g { s with outAddr := addr, segment := kind } =
      g s) (kind : SegmentKind) (sections : List Section) : ∀ cursor : ℕ,
    (layoutSectionsOf kind cursor sections).2.map g = sections.map g := by
  induction sections with
  | nil => exact fun _ => rfl
  | cons s rest ih =>
    intro cursor
    rw [layoutSectionsOf_cons]
    split <;> simp only [map_cons, ih, hg]

/-- What of an object does not depend on the addresses of its sections. -/
def Object.shape {α : Type} (g : Section → α) (object : Object) : Bytes × List Symbol × List α :=
  (object.bytes, object.symbols, object.sections.map g)

section
variable (hg : ∀ s addr kind, g { s with outAddr := addr, segment := kind } = g s)
include hg

theorem shape_layoutKind (kind : SegmentKind) (objects : List Object) : ∀ cursor : ℕ,
    (layoutKind kind cursor objects).2.map (Object.shape g) = objects.map (Object.shape g) := by
  induction objects with
  | nil => exact fun _ => rfl
  | cons object rest ih =>
    intro cursor
    simp only [layoutKind, map_cons, ih, Object.shape, map_layoutSectionsOf hg]

theorem shape_layoutSections (objects : List Object) : (layoutSections objects).map (Object.shape g) =
    objects.map (Object.shape g) := by
  simp only [layoutSections, shape_layoutKind hg]

end

theorem core_layoutSections (objects : List Object) :
    (layoutSections objects).map Object.core = objects.map Object.core := by
  have h := shape_layoutSections (g := core) (fun _ _ _ => rfl) objects
  have hcore : ∀ l : List Object, l.map Object.core =
      (l.map (Object.shape Section.core)).map fun (bytes, symbols, sections) =>
        ⟨bytes, sections, symbols⟩ := by
    intro l
    rw [List.map_map]
    rfl
  rw [hcore, hcore, h]

def LiveAt (objects : List Object) (place : Place) : Prop :=
  ∃ s, sectionAt objects place = some s ∧ s.live = true

theorem sectionAt_setLive (objects : List Object) (place place' : Place) :
    sectionAt (setLive objects place) place' = (sectionAt objects place').map fun s =>
        if place = place' then { s with live := true } else s := by
  obtain ⟨i, j⟩ := place
  obtain ⟨i', j'⟩ := place'
  simp only [sectionAt, setLive, getElem?_modify, Prod.mk.injEq]
  cases objects[i']? with
  | none => rfl
  | some object =>
    by_cases hi : i = i'
    · simp [hi, Object.setLive, getElem?_modify]
    · simp [hi]

/-- Marking goes on: what was live stays live, and what becomes live is on the work list. -/
structure Grown (before after : List Object × List Place) : Prop where
  core : after.1.map Object.core = before.1.map Object.core
  keep : ∀ place, LiveAt before.1 place → LiveAt after.1 place
  fresh : ∀ place, LiveAt after.1 place → LiveAt before.1 place ∨ place ∈ after.2
  work : before.2 ⊆ after.2

theorem Grown.refl (state : List Object × List Place) : Grown state state :=
  ⟨rfl, fun _ h => h, fun _ h => .inl h, Subset.refl _⟩

theorem Grown.trans (h : Grown x y) (h' : Grown y z) : Grown x z where
  core := h'.core.trans h.core
  keep place hp := h'.keep place (h.keep place hp)
  fresh place hp := by
    rcases h'.fresh place hp with hp | hp
    · exact (h.fresh place hp).imp_right fun hw => h'.work hw
    · exact .inr hp
  work := fun _ hw => h'.work (h.work hw)

/-- The section is live, unless it is missing or cannot be loaded. -/
def Reached (objects : List Object) (place : Place) : Prop :=
  ∀ s, sectionAt objects place = some s → isLoadableSection s = true → s.live = true

theorem markSection_grown (objects : List Object) (place : Place) (work : List Place) :
    Grown (objects, work) (markSection objects place work) ∧
      Reached (markSection objects place work).1 place := by
  unfold markSection
  split
  · next hs =>
    refine ⟨Grown.refl _, fun s hs' => ?_⟩
    rw [hs] at hs'
    cases hs'
  next s hs =>
  split
  · next hskip =>
    refine ⟨Grown.refl _, fun s' hs' hload => ?_⟩
    rw [hs] at hs'
    cases hs'
    simpa [hload] using hskip
  refine ⟨⟨core_setLive objects place, fun p hp => ?_, fun p hp => ?_, ?_⟩, fun s' hs' _ => ?_⟩
  · obtain ⟨t, ht, hlive⟩ := hp
    refine ⟨_, by rw [sectionAt_setLive, ht]; rfl, ?_⟩
    split
    · rfl
    · exact hlive
  · obtain ⟨t, ht, hlive⟩ := hp
    rw [sectionAt_setLive] at ht
    obtain ⟨t', ht', rfl⟩ := map_eq_some_iff.1 ht
    by_cases hpp : place = p
    · exact .inr (hpp ▸ mem_cons_self)
    · rw [if_neg hpp] at hlive
      exact .inl ⟨t', ht', hlive⟩
  · exact fun p hp => mem_cons_of_mem _ hp
  · rw [sectionAt_setLive, hs] at hs'
    simp only [map_some, if_true, some.injEq] at hs'
    rw [← hs']

/-- The place of the definition that a relocation needs is reached. -/
def TargetReached (definitions : Definitions) (objects : List Object) (objectIndex : ℕ)
    (symbolIndex : ℕ) : Prop :=
  ∃ symbol, (objects[objectIndex]?.bind fun object => object.symbols[symbolIndex]?) = some symbol ∧
    (symbol.shndx ≠ shnAbs → symbol.shndx ≠ shnUndef →
      Reached objects (objectIndex, symbol.shndx)) ∧
    (symbol.shndx = shnUndef → symbol.bind ≠ stbWeak →
      ∀ d, definitions.get symbol.name = some d → Reached objects d.place)

variable {objects objects' : List Object}

theorem sectionAt_core (place : Place) (h : objects'.map Object.core = objects.map Object.core) :
    (sectionAt objects' place).map core = (sectionAt objects place).map core := by
  have hcore : ∀ l : List Object, (sectionAt l place).map Section.core =
      ((l.map Object.core)[place.1]?).bind fun o => o.sections[place.2]? := by
    intro l
    rw [sectionAt, getElem?_map]
    cases l[place.1]? with
    | none => rfl
    | some o => simp [Object.core]
  rw [hcore, hcore, h]

variable {place : Place}

def LoadableAt (objects : List Object) (place : Place) : Prop :=
  ∃ s, sectionAt objects place = some s ∧ isLoadableSection s = true

theorem LoadableAt.of_core (h : objects'.map Object.core = objects.map Object.core)
    (hload : LoadableAt objects' place) : LoadableAt objects place := by
  obtain ⟨s, hs, hl⟩ := hload
  have hcore := sectionAt_core place h
  rw [hs] at hcore
  obtain ⟨t, ht, hst⟩ := map_eq_some_iff.1 hcore.symm
  refine ⟨t, ht, ?_⟩
  have heq : isLoadableSection t.core = isLoadableSection s.core := by rw [hst]
  exact heq.trans hl

theorem Reached.of_core (hcore : objects'.map Object.core = objects.map Object.core)
    (hkeep : ∀ place, LiveAt objects place → LiveAt objects' place) (hr : Reached objects place) :
    Reached objects' place := by
  intro s hs hload
  obtain ⟨t, ht, hload'⟩ := LoadableAt.of_core hcore ⟨s, hs, hload⟩
  obtain ⟨s', hs', hlive⟩ := hkeep place ⟨t, ht, hr t ht hload'⟩
  rw [hs] at hs'
  cases hs'
  exact hlive

theorem Grown.reached (h : Grown x y) (hr : Reached x.1 place) : Reached y.1 place :=
  hr.of_core h.core h.keep

section
variable (h : objects'.map Object.core = objects.map Object.core)
include h

theorem symbols_of_core (i k : ℕ) :
    (objects'[i]?.bind fun object => object.symbols[k]?) = objects[i]?.bind fun object =>
    object.symbols[k]? := by
  have hcore : ∀ l : List Object, (l[i]?.bind fun object => object.symbols[k]?) =
      ((l.map Object.core)[i]?).bind fun object => object.symbols[k]? := by
    intro l
    rw [getElem?_map]
    cases l[i]? <;> rfl
  rw [hcore objects', hcore objects, h]

theorem relocSyms_of_core (place : Place) (hobject : objects'[place.1]? = some object) : ∃ object',
    objects[place.1]? = some object' ∧ sectionRelocSyms object' place.2 =
    sectionRelocSyms object place.2 := by
  have hcore := congrArg (·[place.1]?) h
  simp only [getElem?_map, hobject, map_some] at hcore
  obtain ⟨o, ho, heq⟩ := map_eq_some_iff.1 hcore.symm
  exact ⟨o, ho, by rw [← sectionRelocSyms_core, heq, sectionRelocSyms_core]⟩

end

variable {definitions : Definitions}

variable {i j : ℕ}

theorem Grown.targetReached (h : Grown x y) (ht : TargetReached definitions x.1 i j) :
    TargetReached definitions y.1 i j := by
  obtain ⟨symbol, hsymbol, hown, hname⟩ := ht
  exact ⟨symbol, (symbols_of_core h.core i j).trans hsymbol, fun ha hu => h.reached (hown ha hu),
    fun hu hw d hd => h.reached (hname hu hw d hd)⟩

theorem markPlace_grown (state : List Object × List Place) (place : Option Place) :
    Grown state (markPlace state place) ∧ ∀ p ∈ place, Reached (markPlace state place).1 p := by
  cases place with
  | none => exact ⟨Grown.refl _, nofun⟩
  | some place =>
    obtain ⟨hgrown, hreached⟩ := markSection_grown state.1 place state.2
    exact ⟨hgrown, fun p hp => some.inj hp ▸ hreached⟩

theorem markRelocationTarget_grown
    (h : markRelocationTarget definitions i state j = .ok state') : Grown state state' ∧
    TargetReached definitions state'.1 i j := by
  obtain ⟨symbol, hsymbol, rfl⟩ := markRelocationTarget_eq h
  obtain ⟨hgrown, hreached⟩ := markPlace_grown state (referredPlace definitions i symbol)
  refine ⟨hgrown, symbol, (symbols_of_core hgrown.core i j).trans hsymbol, fun habs hdef => ?_,
    fun hundef hweak d hd => ?_⟩
  · exact hreached _ (mem_referredPlace.2 (.inl ⟨habs, hdef, rfl⟩))
  · exact hreached _ (mem_referredPlace.2 (.inr ⟨hundef, hweak, d, hd, rfl⟩))

/-- The relocations of the section refer to sections that are reached. -/
def ClosedAt (definitions : Definitions) (objects : List Object) (place : Place) : Prop :=
  ∀ object, objects[place.1]? = some object →
    ∃ symbols, sectionRelocSyms object place.2 = .ok symbols ∧
      ∀ j ∈ symbols, TargetReached definitions objects place.1 j

theorem Grown.closedAt (h : Grown x y) (hc : ClosedAt definitions x.1 place) :
    ClosedAt definitions y.1 place := by
  intro object hobject
  obtain ⟨o, ho, heq⟩ := relocSyms_of_core h.core place hobject
  obtain ⟨symbols, hsymbols, hall⟩ := hc o ho
  exact ⟨symbols, heq.symm.trans hsymbols, fun j hj => h.targetReached (hall j hj)⟩

theorem markStep_grown (h : markStep definitions objects place work = .ok state) :
    Grown (objects, work) state ∧ ClosedAt definitions state.1 place := by
  obtain ⟨object, hobject, h⟩ := bind_eq_ok.1 h
  obtain ⟨symbols, hsymbols, h⟩ := bind_eq_ok.1 h
  have hobject := okOr_eq_ok.1 hobject
  have hdone : Grown (objects, work) state ∧
      ∀ j ∈ symbols, TargetReached definitions state.1 place.1 j := by
    refine foldlM_prefix
      (P := fun done (st : List Object × List Place) => Grown (objects, work) st ∧
        ∀ j ∈ done, TargetReached definitions st.1 place.1 j)
      ⟨Grown.refl _, by simp⟩ (fun done j st st' _ hst hs => ?_) h
    obtain ⟨hgrown, htarget⟩ := markRelocationTarget_grown hs
    refine ⟨hst.1.trans hgrown, fun k hk => ?_⟩
    rcases mem_append.1 hk with hk | hk
    · exact hgrown.targetReached (hst.2 k hk)
    · rw [mem_singleton.1 hk]
      exact htarget
  refine ⟨hdone.1, fun object' hobject' => ⟨symbols, ?_, hdone.2⟩⟩
  obtain ⟨o, ho, heq⟩ := relocSyms_of_core hdone.1.core place hobject'
  cases hobject.symm.trans ho
  exact heq.symm.trans hsymbols

/-- Every live section is closed or still on the work list. -/
def Pending (definitions : Definitions) (state : List Object × List Place) : Prop :=
  ∀ place, LiveAt state.1 place → ClosedAt definitions state.1 place ∨ place ∈ state.2

theorem closed_markLoop : ∀ {objects objects' : List Object} {work : List Place},
    Pending definitions (objects, work) → work.length + unmarked objects ≤ fuel →
    markLoop definitions fuel objects work = .ok objects' →
    objects'.map Object.core = objects.map Object.core ∧
    (∀ place, LiveAt objects place → LiveAt objects' place) ∧
    ∀ place, LiveAt objects' place → ClosedAt definitions objects' place := by
  induction fuel with
  | zero =>
    intro objects objects' work hp hm h
    obtain rfl : work = [] := length_eq_zero_iff.1 (by omega)
    cases h
    exact ⟨rfl, fun _ h => h, fun place hlive => (hp place hlive).resolve_right (by simp)⟩
  | succ fuel ih =>
    intro objects objects' work hp hm h
    cases work with
    | nil =>
      cases h
      exact ⟨rfl, fun _ h => h, fun place hlive => (hp place hlive).resolve_right (by simp)⟩
    | cons place work =>
      obtain ⟨⟨objects₁, work₁⟩, hstep, hrest⟩ := bind_eq_ok.1 h
      obtain ⟨hgrown, hclosed⟩ := markStep_grown hstep
      have hmeasure := markStep_measure hstep
      dsimp only at hmeasure hclosed
      rw [length_cons] at hm
      have hpending : Pending definitions (objects₁, work₁) := by
        intro p hlive
        rcases hgrown.fresh p hlive with hlive | hwork
        · rcases hp p hlive with hc | hwork
          · exact .inl (hgrown.closedAt hc)
          rcases mem_cons.1 hwork with rfl | hwork
          · exact .inl hclosed
          · exact .inr (hgrown.work hwork)
        · exact .inr hwork
      obtain ⟨hcore, hkeep, hall⟩ := ih hpending (by omega) hrest
      exact ⟨hcore.trans hgrown.core, fun p hp => hkeep p (hgrown.keep p hp), hall⟩

theorem not_liveAt_of_parsed (hp : ∀ object ∈ objects, object.Parsed) (place : Place) :
    ¬LiveAt objects place := by
  rintro ⟨s, hs, hlive⟩
  obtain ⟨object, hobject, hin⟩ := bind_eq_some_iff.1 hs
  rw [((hp object (mem_of_getElem? hobject)).sections s
    (mem_of_getElem? hin)).live] at hlive
  cases hlive

/-- When the marking ends, the relocations of every live section refer to sections that are
reached, and so is the entry. -/
theorem closed_markLiveSections (hp : ∀ object ∈ objects, object.Parsed)
    (h : markLiveSections objects entryName = .ok objects') : objects'.map Object.core =
    objects.map Object.core ∧ (∀ d, (collectDefinedSymbolSections objects).get entryName = some d →
      Reached objects' d.place) ∧ ∀ place, LiveAt objects' place →
    ClosedAt (collectDefinedSymbolSections objects) objects' place := by
  obtain ⟨hgrown, hentry⟩ := markPlace_grown (objects, [])
    (((collectDefinedSymbolSections objects).get entryName).map (·.place))
  have hmeasure := markPlace_measure (objects, [])
    (((collectDefinedSymbolSections objects).get entryName).map (·.place))
  rw [← markSymbolByName_eq] at hgrown hentry hmeasure
  have hle := unmarked_le_sectionCount objects
  rw [length_nil, Nat.zero_add] at hmeasure
  have hpending : Pending (collectDefinedSymbolSections objects) (markSymbolByName
      (collectDefinedSymbolSections objects) entryName (objects, [])) := fun place hlive =>
    .inr ((hgrown.fresh place hlive).resolve_left (not_liveAt_of_parsed hp place))
  obtain ⟨hcore, hkeep, hall⟩ := closed_markLoop hpending (hmeasure.trans_le hle) h
  exact ⟨hcore.trans hgrown.core, fun d hd => (hentry _ (by simp [hd])).of_core hcore hkeep, hall⟩

theorem live_layoutSections (objects : List Object) (place : Place) :
    (sectionAt (layoutSections objects) place).map (·.live) =
      (sectionAt objects place).map (·.live) := by
  have hlive : ∀ l : List Object, (sectionAt l place).map (·.live) =
      ((l.map (Object.shape (·.live)))[place.1]?).bind fun o => o.2.2[place.2]? := by
    intro l
    rw [sectionAt, getElem?_map]
    cases l[place.1]? with
    | none => rfl
    | some o => simp [Object.shape]
  rw [hlive, hlive, shape_layoutSections fun _ _ _ => rfl]

/-- The layout marks nothing. -/
theorem grown_layoutSections (objects : List Object) :
    Grown (objects, []) (layoutSections objects, []) where
  core := core_layoutSections objects
  keep place := by
    rintro ⟨s, hs, hlive⟩
    have h := live_layoutSections objects place
    rw [hs, map_some, hlive] at h
    exact map_eq_some_iff.1 h
  fresh place := by
    rintro ⟨s, hs, hlive⟩
    have h := live_layoutSections objects place
    rw [hs, map_some, hlive] at h
    exact .inl (map_eq_some_iff.1 h.symm)
  work := Subset.refl _

/-- In the linked objects, the relocations of every live section refer to sections that are
reached. -/
theorem closed_linked (hp : ∀ object ∈ selected, object.Parsed)
    (h : markLiveSections selected entryName = .ok objects) (place : Place)
    (hlive : LiveAt (layoutSections objects) place) :
    ClosedAt (collectDefinedSymbolSections (layoutSections objects)) (layoutSections objects)
      place := by
  obtain ⟨hcore, -, hclosed⟩ := closed_markLiveSections hp h
  have hgrown := grown_layoutSections objects
  have hdefs : collectDefinedSymbolSections (layoutSections objects) =
      collectDefinedSymbolSections selected := by
    rw [← collectDefinedSymbolSections_core, core_layoutSections, hcore,
      collectDefinedSymbolSections_core]
  rw [hdefs]
  have hbefore : LiveAt objects place := (hgrown.fresh place hlive).resolve_right (by simp)
  exact hgrown.closedAt (hclosed place hbefore)

end Ristux.Linker
