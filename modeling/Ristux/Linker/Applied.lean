import Ristux.Linker.Placement

-- What an applied relocation stores, and when it is the exact value.

variable {kind : SegmentKind} {rela : Bytes} {segments : List Segment}

namespace Ristux.Linker
open Lib Fallible List Global Except

/-- How the base of a relocation comes about: an entry of the global offset table, or the value of
the symbol. -/
def BaseFrom (segments : List Segment) (a : Applied) (segments' : List Segment) : Prop :=
  (a.typ = rX8664Gotpcrel ∧ (segments', a.relocBase) = appendStaticGotEntry segments a.symbolValue)
    ∨ (a.typ ≠ rX8664Gotpcrel ∧ segments' = segments ∧ a.relocBase = a.symbolValue)

/-- What is recorded of an applied relocation, apart from where it was stored. -/
structure Applied.Sound (globals : List Global) (a : Applied) : Prop where
  symbol : a.symbol ∈ a.object.symbols
  value : Linker.symbolValue a.object a.symbol globals = .ok a.symbolValue
  base : a.relocBase = if a.typ = rX8664Gotpcrel then min a.slot u64Max else a.symbolValue
  place : a.place = saturatingAdd a.target.outAddr a.rOffset
  stored : ∃ value, relocValue a.typ a.relocBase a.place a.addend = .ok value ∧
    a.stored = storedBytes a.typ value

/-- An entry of a relocation section for the section `target`, which is placed. -/
structure RelocOf (objects : List Object) (object : Object) (target : Section)
    (kind : SegmentKind) (rela : Bytes) : Prop where
  mem : object ∈ objects
  segment : target.segment = some kind
  entry : ∃ s entries, s ∈ object.sections ∧ s.typ = shtRela ∧
    object.sections[s.info]? = some target ∧ relaEntries object s 24 = .ok entries ∧
    rela ∈ entries

variable {objects : List Object} {object : Object}

theorem RelocOf.target {target : Section}
    (h : RelocOf objects object target kind rela) : target ∈ object.sections := by
  obtain ⟨s, entries, -, -, htarget, -⟩ := h.entry
  exact mem_of_getElem? htarget

variable {globals : List Global}

/-- The relocation that an entry of a relocation section asks for. -/
structure Applied.Of (a : Applied) (object : Object) (target : Section) (kind : SegmentKind)
    (rela : Bytes) : Prop where
  object_eq : a.object = object
  target_eq : a.target = target
  kind_eq : a.kind = kind
  typ_eq : a.typ = relocType rela
  rOffset_eq : a.rOffset = leNat (rela.take 8)
  addend_eq : a.addend = toSigned64 (leNat ((rela.drop 16).take 8))
  symbol_eq : object.symbols[relocSym rela]? = some a.symbol

theorem appendStaticGotEntry_snd (segments : List Segment) (value : ℕ) :
    (appendStaticGotEntry segments value).2 = min (gotSlot segments) u64Max := by
  unfold appendStaticGotEntry gotSlot
  dsimp only
  cases findSegment (ensureDataSegment segments) .data with
  | none => rfl
  | some s => rfl

/-- One relocation does nothing, if its type says so, or is applied to the segment of its target. -/
theorem applyRelocation_cases {target : Section} {state state' : RelocState}
    (h : applyRelocation globals object target kind state rela = .ok state') :
    (relocType rela = rX8664None ∧ state' = state) ∨ ∃ a segments segment, a.Sound globals ∧
    relocType rela ≠ rX8664None ∧ a.Of object target kind rela ∧
    BaseFrom state.segments a segments ∧ findSegment segments kind = some segment ∧
    a.patch = wrap (target.outAddr - segment.vaddr + a.rOffset) ∧
    a.patch + a.stored.length ≤ segment.bytes.length ∧
    state' = ⟨updateSegment segments kind fun s =>
      { s with bytes := splice s.bytes a.patch a.stored }, a :: state.applied⟩ := by
  unfold applyRelocation at h
  dsimp only at h
  split at h
  · next hnone =>
    cases h
    exact .inl ⟨hnone, rfl⟩
  next hnone =>
  obtain ⟨symbol, hsymbol, h⟩ := bind_eq_ok.1 h
  obtain ⟨s, hs, h⟩ := bind_eq_ok.1 h
  generalize hbase : (if relocType rela = rX8664Gotpcrel then
    appendStaticGotEntry state.segments s else (state.segments, s)) = pair at h
  obtain ⟨segments, relocBase⟩ := pair
  obtain ⟨value, hvalue, h⟩ := bind_eq_ok.1 h
  obtain ⟨segment, hsegment, h⟩ := bind_eq_ok.1 h
  split at h
  · next hfit =>
    cases h
    have hfrom : (relocType rela = rX8664Gotpcrel ∧
          (segments, relocBase) = appendStaticGotEntry state.segments s) ∨
        (relocType rela ≠ rX8664Gotpcrel ∧ segments = state.segments ∧ relocBase = s) := by
      split at hbase
      · next hgot => exact .inl ⟨hgot, hbase.symm⟩
      next hgot =>
      cases hbase
      exact .inr ⟨hgot, rfl, rfl⟩
    have hsymbol := okOr_eq_ok.1 hsymbol
    refine .inr ⟨⟨_, _, _, _, _, _, _, _, _, _, _, _, _⟩, segments, segment,
      ⟨mem_of_getElem? hsymbol, hs, ?_, rfl, value, hvalue, rfl⟩, hnone,
      ⟨rfl, rfl, rfl, rfl, rfl, rfl, hsymbol⟩, hfrom, okOr_eq_ok.1 hsegment, rfl, hfit, rfl⟩
    change relocBase = if relocType rela = rX8664Gotpcrel then min (gotSlot state.segments) u64Max
      else s
    rcases hfrom with ⟨hgot, heq⟩ | ⟨hgot, -, heq⟩
    · rw [if_pos hgot, ← appendStaticGotEntry_snd _ s, ← heq]
    · rw [if_neg hgot, heq]
  · cases h

/-- The rule for a loop over all relocations. A step may use a fact about the result that the
earlier states inherit. -/
theorem applyRelocations_induct {P B : RelocState → Prop} (h0 : P ⟨segments, []⟩)
    (hback : ∀ object target kind rela, RelocOf objects object target kind rela → ∀ st st',
      applyRelocation globals object target kind st rela = .ok st' → B st' → B st)
    (hstep : ∀ object target kind rela, RelocOf objects object target kind rela → ∀ st st', P st →
      applyRelocation globals object target kind st rela = .ok st' → B st' → P st')
    (h : applyRelocations objects globals segments = .ok state) (hB : B state) : P state := by
  -- one section of relocations, for any starting state
  have hsection : ∀ entry ∈ objectSections objects, ∀ st st',
      applySection globals st entry = .ok st' → B st' → (P st → P st') ∧ B st := by
    rintro ⟨object, s⟩ hentry st st' hs hB'
    obtain ⟨o, hobject, hin⟩ := mem_flatMap.1 hentry
    obtain ⟨t, hsection, heq⟩ := mem_map.1 hin
    cases heq
    unfold applySection at hs
    dsimp only at hs
    split at hs
    · cases hs
      exact ⟨id, hB'⟩
    next htyp =>
    obtain ⟨target, htarget, hs⟩ := bind_eq_ok.1 hs
    split at hs
    · cases hs
      exact ⟨id, hB'⟩
    next kind hkind =>
    obtain ⟨entries, hentries, hs⟩ := bind_eq_ok.1 hs
    have hreloc : ∀ rela ∈ entries, RelocOf objects object target kind rela := fun rela hrela =>
      ⟨hobject, hkind, s, entries, hsection, not_not.1 htyp, okOr_eq_ok.1 htarget, hentries, hrela⟩
    have hfold := fun hst : P st => foldlM_of_final hst
      (fun rela hrela => hback object target kind rela (hreloc rela hrela))
      (fun rela hrela => hstep object target kind rela (hreloc rela hrela)) hs hB'
    have hfirst := foldlM_of_final trivial
      (fun rela hrela => hback object target kind rela (hreloc rela hrela))
      (fun _ _ _ _ _ _ _ => trivial) hs hB'
    exact ⟨fun hst => (hfold hst).1, hfirst.2⟩
  exact (foldlM_of_final h0 (fun e he st st' hs hB' => (hsection e he st st' hs hB').2)
    (fun e he st st' hst hs hB' => (hsection e he st st' hs hB').1 hst) h hB).1

/-- Where an applied relocation comes from. -/
def Applied.From (objects : List Object) (a : Applied) : Prop :=
  ∃ rela, RelocOf objects a.object a.target a.kind rela ∧ relocType rela ≠ rX8664None ∧
    a.Of a.object a.target a.kind rela

theorem sound_applyRelocations {state : RelocState}
    (h : applyRelocations objects globals segments = .ok state) : ∀ a ∈ state.applied,
    a.Sound globals ∧ a.From objects := by
  refine applyRelocations_induct
    (P := fun st => ∀ a ∈ st.applied, a.Sound globals ∧ a.From objects)
    (by simp) (fun _ _ _ _ _ _ _ _ _ => trivial)
    (fun object target kind rela hreloc st st' hst hs _ => ?_) h trivial
  rcases applyRelocation_cases hs with
    ⟨-, rfl⟩ | ⟨a, segs, segment, hsound, hnone, hof, -, -, -, -, rfl⟩
  · exact hst
  intro b hb
  rcases mem_cons.1 hb with rfl | hb
  · obtain ⟨rfl, rfl, rfl, -⟩ := id hof
    exact ⟨hsound, rela, hreloc, hnone, hof⟩
  · exact hst b hb

/-- The relocations that were applied are never forgotten. -/
theorem applied_subset {target : Section} {st st' : RelocState}
    (h : applyRelocation globals object target kind st rela = .ok st') :
    st.applied ⊆ st'.applied := by
  rcases applyRelocation_cases h with ⟨-, rfl⟩ | ⟨a, _, _, -, -, -, -, -, -, -, rfl⟩
  · exact Subset.refl _
  · exact subset_cons_self a st.applied

theorem applied_subset_applySection {entry : Object × Section} {st st' : RelocState}
    (h : applySection globals st entry = .ok st') : st.applied ⊆ st'.applied := by
  unfold applySection at h
  dsimp only at h
  split at h
  · cases h
    exact Subset.refl _
  obtain ⟨target, -, h⟩ := bind_eq_ok.1 h
  split at h
  · cases h
    exact Subset.refl _
  obtain ⟨entries, -, h⟩ := bind_eq_ok.1 h
  exact foldlM_invariant (P := fun x => st.applied ⊆ x.applied) (Subset.refl _)
    (fun _ _ _ _ hx hstep => Subset.trans hx (applied_subset hstep)) h

/-- Each entry of a relocation section for a placed section is applied. -/
theorem applied_of_relocOf {state : RelocState} {target : Section}
    (h : applyRelocations objects globals segments = .ok state)
    (hreloc : RelocOf objects object target kind rela) (hnone : relocType rela ≠ rX8664None) :
    ∃ a ∈ state.applied, a.Of object target kind rela := by
  obtain ⟨s, entries, hs, htyp, htarget, hentries, hrela⟩ := hreloc.entry
  have hin : (object, s) ∈ objectSections objects :=
    mem_flatMap.2 ⟨object, hreloc.mem, mem_map_of_mem hs⟩
  refine foldlM_visits (Q := fun st => ∃ a ∈ st.applied, a.Of object target kind rela) hin
    (fun st st' hst => ?_) (fun _ _ _ _ hst => ?_) h
  · unfold applySection at hst
    dsimp only at hst
    rw [if_neg (not_not.2 htyp), okOr_eq_ok.2 htarget] at hst
    obtain ⟨_, htarget', hst⟩ := bind_eq_ok.1 hst
    cases htarget'
    rw [hreloc.segment] at hst
    obtain ⟨_, hentries', hst⟩ := bind_eq_ok.1 hst
    cases hentries.symm.trans hentries'
    refine foldlM_visits (Q := fun st => ∃ a ∈ st.applied, a.Of object target kind rela) hrela
      (fun st st' hst => ?_) (fun _ _ _ _ hst => ?_) hst
    · rcases applyRelocation_cases hst with ⟨h0, -⟩ | ⟨a, _, _, -, -, hof, -, -, -, -, rfl⟩
      · exact absurd h0 hnone
      · exact ⟨a, mem_cons_self, hof⟩
    · rintro ⟨a, ha, hof⟩
      exact ⟨a, applied_subset hst ha, hof⟩
  · rintro ⟨a, ha, hof⟩
    exact ⟨a, applied_subset_applySection hst ha, hof⟩

theorem updateSegment_cons (s : Segment) (segments : List Segment) (kind : SegmentKind)
    (f : Segment → Segment) : updateSegment (s :: segments) kind f =
    if s.kind = kind then f s :: segments else s :: updateSegment segments kind f := by
  unfold updateSegment
  rw [findIdx?_cons]
  by_cases hk : s.kind = kind
  · simp [hk]
  simp only [hk, decide_false, if_false, Bool.false_eq_true]
  cases segments.findIdx? fun s => decide (s.kind = kind) with
  | none => rfl
  | some index => rfl

/-- An update reaches the segment that is found for its kind, and no other. -/
theorem findSegment_updateSegment (segments : List Segment) (kind other : SegmentKind)
    {f : Segment → Segment} (hf : ∀ s, (f s).kind = s.kind) :
    findSegment (updateSegment segments kind f) other =
      if other = kind then (findSegment segments kind).map f else findSegment segments other := by
  induction segments with
  | nil => simp [findSegment, updateSegment]
  | cons s segments ih =>
    have hcons : ∀ (t : Segment) (l : List Segment) (k : SegmentKind),
        findSegment (t :: l) k = if t.kind = k then some t else findSegment l k := by
      intro t l k
      unfold findSegment
      rw [find?_cons]
      by_cases ht : t.kind = k <;> simp [ht]
    rw [updateSegment_cons]
    split
    · next hk =>
      rw [hcons, hcons, hcons, hf]
      by_cases ho : other = kind
      · simp [ho, hk]
      · have hne : s.kind ≠ other := fun h => ho (h.symm.trans hk)
        simp [ho, hne]
    · next hk =>
      rw [hcons, hcons, hcons, ih, if_neg hk]
      by_cases ho : other = kind
      · simp [ho, hk]
      · simp [ho]

/-- Each segment stays where it is, and bytes are only added at its end. -/
def Grows (segments segments' : List Segment) : Prop :=
  ∀ kind s, findSegment segments kind = some s →
    ∃ s', findSegment segments' kind = some s' ∧ s'.vaddr = s.vaddr ∧ s.bytes <+: s'.bytes

theorem grows_appendStaticGotEntry (segments : List Segment) (value : ℕ) :
    Grows segments (appendStaticGotEntry segments value).1 := by
  intro kind s hs
  have hensure : findSegment (ensureDataSegment segments) kind = some s := by
    unfold ensureDataSegment
    split
    · exact hs
    · unfold findSegment at hs ⊢
      rw [find?_append, hs]
      rfl
  unfold appendStaticGotEntry
  dsimp only
  split
  · exact ⟨s, hensure, rfl, prefix_rfl⟩
  by_cases hk : kind = .data
  · refine ⟨{ s with bytes := gotBytes s.bytes value }, ?_, rfl, ?_⟩
    · rw [findSegment_updateSegment, if_pos hk, ← hk, hensure]
      · rfl
      · exact fun _ => rfl
    · unfold gotBytes
      rw [append_assoc]
      exact prefix_append _ _
  · refine ⟨s, ?_, rfl, prefix_rfl⟩
    rw [findSegment_updateSegment, if_neg hk, hensure]
    exact fun _ => rfl

/-- The relocation writes the byte at this offset of the segment of this kind. -/
def Applied.Writes (a : Applied) (kind : SegmentKind) (i : ℕ) : Prop :=
  a.kind = kind ∧ a.patch ≤ i ∧ i < a.patch + a.stored.length

/-- The field of the relocation lies at its place in the segment of its target and has the bytes
that were stored, apart from those that one of the `later` relocations wrote over. -/
def Applied.StoredIn (a : Applied) (segments : List Segment) (later : List Applied) : Prop :=
  ∃ segment, findSegment segments a.kind = some segment ∧
    a.patch = wrap (a.target.outAddr - segment.vaddr + a.rOffset) ∧
    a.patch + a.stored.length ≤ segment.bytes.length ∧
    ∀ i < a.stored.length, (∀ b ∈ later, ¬b.Writes a.kind (a.patch + i)) →
      segment.bytes[a.patch + i]? = a.stored[i]?

/-- Each relocation filled its field. The last one stands first in the list. -/
def RelocState.StoresFields (state : RelocState) : Prop :=
  ∀ later a earlier, state.applied = later ++ a :: earlier → a.StoredIn state.segments later

theorem Applied.StoredIn.grows {a : Applied} {segments segments' : List Segment}
    {later : List Applied} (h : a.StoredIn segments later) (hg : Grows segments segments') :
    a.StoredIn segments' later := by
  obtain ⟨s, hs, hpatch, hfit, hbytes⟩ := h
  obtain ⟨s', hs', hvaddr, hprefix⟩ := hg a.kind s hs
  have hlen := hprefix.length_le
  refine ⟨s', hs', hvaddr ▸ hpatch, by omega, fun i hi hlater => ?_⟩
  rw [← hbytes i hi hlater]
  obtain ⟨rest, hrest⟩ := hprefix
  rw [← hrest, getElem?_append_left (by omega)]

theorem BaseFrom.grows {a : Applied} {segments segments' : List Segment}
    (h : BaseFrom segments a segments') : Grows segments segments' := by
  rcases h with ⟨-, hgot⟩ | ⟨-, rfl, -⟩
  · rw [(Prod.mk.inj hgot).1]
    exact grows_appendStaticGotEntry segments a.symbolValue
  · exact fun _ s hs => ⟨s, hs, rfl, prefix_rfl⟩

variable {a : Applied} {segment : Segment}

/-- The relocation that is applied fills its field. -/
theorem Applied.storedIn_self (hfind : findSegment segments a.kind = some segment)
    (hpatch : a.patch = wrap (a.target.outAddr - segment.vaddr + a.rOffset))
    (hfit : a.patch + a.stored.length ≤ segment.bytes.length) :
    a.StoredIn (updateSegment segments a.kind fun s =>
      { s with bytes := splice s.bytes a.patch a.stored }) [] := by
  refine ⟨{ segment with bytes := splice segment.bytes a.patch a.stored }, ?_, hpatch, ?_,
    fun i hi _ => getElem?_splice_of_lt hfit hi⟩
  · rw [findSegment_updateSegment, if_pos rfl, hfind]
    · rfl
    · exact fun _ => rfl
  · rwa [length_splice hfit]

/-- The fields filled before keep their bytes outside the new field. -/
theorem Applied.StoredIn.splice {b : Applied} {later : List Applied}
    (h : b.StoredIn segments later) (hfind : findSegment segments a.kind = some segment)
    (hfit : a.patch + a.stored.length ≤ segment.bytes.length) :
    b.StoredIn (updateSegment segments a.kind fun s =>
      { s with bytes := splice s.bytes a.patch a.stored }) (a :: later) := by
  obtain ⟨s, hs, hpatch, hfit', hbytes⟩ := h
  by_cases hk : b.kind = a.kind
  · have heq : s = segment := Option.some.inj (hs.symm.trans (hk ▸ hfind))
    subst heq
    refine ⟨{ s with bytes := Lib.splice s.bytes a.patch a.stored }, ?_, hpatch, ?_,
      fun i hi hlater => ?_⟩
    · rw [findSegment_updateSegment, if_pos hk, hfind]
      · rfl
      · exact fun _ => rfl
    · rwa [length_splice hfit]
    · obtain ⟨ha, hlater⟩ := forall_mem_cons.1 hlater
      rw [← hbytes i hi hlater]
      apply getElem?_splice_of_outside hfit
      by_contra hin
      exact ha ⟨hk.symm, by omega, by omega⟩
  · refine ⟨s, ?_, hpatch, hfit', fun i hi hlater => hbytes i hi (forall_mem_cons.1 hlater).2⟩
    rw [findSegment_updateSegment, if_neg hk, hs]
    exact fun _ => rfl

theorem storesFields_applyRelocations {state : RelocState}
    (h : applyRelocations objects globals segments = .ok state) : state.StoresFields := by
  refine applyRelocations_induct (P := RelocState.StoresFields) (B := fun _ => True)
    (fun later a earlier heq => by simp at heq) (fun _ _ _ _ _ _ _ _ _ => trivial)
    (fun object target kind rela hreloc st st' hst hs _ => ?_) h trivial
  rcases applyRelocation_cases hs with
    ⟨-, rfl⟩ | ⟨a, segs, segment, -, -, hof, hbase, hfind, hpatch, hfit, rfl⟩
  · exact hst
  obtain ⟨rfl, rfl, rfl, -⟩ := id hof
  intro later b earlier heq
  -- either the relocation just applied, or one that was there before
  cases later with
  | nil =>
    obtain ⟨rfl, -⟩ := cons.inj heq
    exact Applied.storedIn_self hfind hpatch hfit
  | cons c later =>
    obtain ⟨rfl, hrest⟩ := cons.inj heq
    exact ((hst later b earlier hrest).grows hbase.grows).splice hfind hfit

/-- The relocations that were applied are those of the placed sections. -/
structure Linked.AppliesAll (l : Linked) : Prop where
  all : ∀ object target kind rela, RelocOf l.objects object target kind rela →
    relocType rela ≠ rX8664None → ∃ a ∈ l.applied, a.Of object target kind rela
  only : ∀ a ∈ l.applied, a.From l.objects
  fields : RelocState.StoresFields ⟨l.segments, l.applied⟩

theorem Applied.From.object_mem (h : a.From objects) : a.object ∈ objects := by
  obtain ⟨rela, hreloc, -⟩ := h
  exact hreloc.mem

/-- The table of global names without a limit on the addresses. -/
def exactGlobals (objects : List Object) : List Global :=
  match collectGlobalsWith (· + ·) objects with
  | .ok globals => globals
  | .error _ => []

/-- The value of the symbol without a limit on the addresses. -/
def Applied.exactSymbol (objects : List Object) (a : Applied) : ℕ :=
  match symbolValueWith (· + ·) a.object a.symbol (exactGlobals objects) with
  | .ok value => value
  | .error _ => 0

def Applied.exactPlace (a : Applied) : ℕ := a.target.outAddr + a.rOffset

/-- `S`, or `G` for a relocation through the global offset table. -/
def Applied.exactBase (objects : List Object) (a : Applied) : ℕ :=
  if a.typ = rX8664Gotpcrel then a.slot else a.exactSymbol objects

/-- The field is relative to its place. -/
def Applied.isRelative (a : Applied) : Bool :=
  a.typ = rX8664Pc32 ∨ a.typ = rX8664Plt32 ∨ a.typ = rX8664Gotpcrel

/-- `S + A - P`, `G + A - P` or `S + A`. -/
def Applied.exactValue (objects : List Object) (a : Applied) : ℤ :=
  if a.isRelative then a.exactBase objects + a.addend - a.exactPlace
  else a.exactBase objects + a.addend

def signExtend32 (n : ℕ) : ℤ := if n < 2 ^ 31 then n else (n : ℤ) - 2 ^ 32

/-- The number that a reader takes from the stored field. -/
def Applied.extended (a : Applied) : ℤ :=
  if a.typ = rX866432 then leNat a.stored else signExtend32 (leNat a.stored)

/-- The field holds the exact value. -/
def Applied.Exact (objects : List Object) (a : Applied) : Prop :=
  a.typ ≠ rX866464 → a.extended = a.exactValue objects

/-- By how much an address is more than 64 bits hold. -/
def excess (address : ℕ) : ℕ := address - u64Max

/-- What the value loses when the base and the place are limited to 64 bits. -/
def Applied.lost (objects : List Object) (a : Applied) : ℤ :=
  if a.isRelative then excess (a.exactBase objects) - excess a.exactPlace
  else excess (a.exactBase objects)

/-- The value fits in the field, and what it loses does not show in 32 bits. -/
def Applied.InRange (objects : List Object) (a : Applied) : Prop :=
  a.typ ≠ rX866464 → 2 ^ 32 ∣ a.lost objects ∧
    if a.typ = rX866432 then 0 ≤ a.exactValue objects ∧ a.exactValue objects < 2 ^ 32
    else -2 ^ 31 ≤ a.exactValue objects ∧ a.exactValue objects < 2 ^ 31

/-- A global whose value is limited to 64 bits. -/
def Global.cap (g : Global) : Global := { g with value := min g.value u64Max }

theorem lookupGlobal_cap (globals : List Global) (name : Bytes) :
    lookupGlobal (globals.map cap) name =
      (lookupGlobal globals name).map fun value => min value u64Max := by
  unfold lookupGlobal
  rw [find?_map, Option.map_map, Option.map_map]
  rfl

theorem symbolValue_cap (globals : List Global) (hv : symbol.value ≤ u64Max) :
    symbolValueWith saturatingAdd object symbol (globals.map cap) =
    (symbolValueWith (· + ·) object symbol globals).map fun value => min value u64Max := by
  unfold symbolValueWith
  split
  · rw [Except.map, min_eq_left hv]
  split
  · rfl
  split
  · cases object.sections[symbol.shndx]? with
    | none => rfl
    | some s =>
      simp only [okOr, bind, Except.bind, pure, Except.pure, Except.map]
      split
      · rw [min_eq_left hv]
      · rfl
  · rw [lookupGlobal_cap]
    cases lookupGlobal globals symbol.name <;> rfl

theorem addGlobal_cap (globals : List Global) (name : Bytes) (value : ℕ) (weak : Bool) :
    addGlobal (globals.map cap) name (min value u64Max) weak =
      (addGlobal globals name value weak).map (map cap) := by
  unfold addGlobal
  rw [find?_map, show ((fun g : Global => decide (g.name = name)) ∘ cap) =
    fun g => decide (g.name = name) from rfl]
  cases globals.find? fun g => decide (g.name = name) with
  | none => simp [Except.map, cap]
  | some existing =>
    simp only [Option.map_some]
    have hweak : existing.cap.weak = existing.weak := rfl
    rw [hweak]
    split
    · simp only [Except.map, map_map]
      congr 1
      refine map_congr_left fun g _ => ?_
      by_cases hname : g.name = name <;> simp [cap, hname]
    split <;> rfl

theorem collectSymbol_cap (globals : List Global)
    (hv : entry.2.value ≤ u64Max) : collectSymbolWith saturatingAdd (globals.map cap) entry =
      (collectSymbolWith (· + ·) globals entry).map (map cap) := by
  obtain ⟨object, symbol⟩ := entry
  unfold collectSymbolWith
  dsimp only at hv ⊢
  split
  · rfl
  cases isLinked object symbol with
  | error e => rfl
  | ok linked =>
    have hvalue : symbolValueWith saturatingAdd object symbol [] = _ := symbolValue_cap [] hv
    simp only [bind, Except.bind]
    split
    · rfl
    rw [hvalue]
    cases symbolValueWith (· + ·) object symbol [] with
    | error e => rfl
    | ok value => exact addGlobal_cap globals symbol.name value _

theorem collectGlobals_cap (hv : ∀ object ∈ objects, ∀ symbol ∈ object.symbols,
      symbol.value ≤ u64Max) (h : collectGlobals objects = .ok globals) :
    globals = (exactGlobals objects).map cap := by
  have hcomp : collectGlobals objects =
      (collectGlobalsWith (· + ·) objects).map (map cap) := by
    refine foldlM_comp (fun entry hentry b => collectSymbol_cap b ?_) []
    obtain ⟨object, hobject, hin⟩ := mem_flatMap.1 hentry
    obtain ⟨symbol, hsymbol, rfl⟩ := mem_map.1 hin
    exact hv object hobject symbol hsymbol
  rw [hcomp] at h
  obtain ⟨exact', hexact, rfl⟩ := map_eq_ok.1 h
  rw [exactGlobals, hexact]

/-- The linker uses the exact value of a symbol, limited to 64 bits. -/
theorem Applied.Sound.symbolValue_eq (ha : a.Sound globals) (hobject : a.object ∈ objects)
    (hv : ∀ object ∈ objects, ∀ symbol ∈ object.symbols, symbol.value ≤ u64Max)
    (h : collectGlobals objects = .ok globals) :
    a.symbolValue = min (a.exactSymbol objects) u64Max := by
  have hvalue := ha.value
  rw [Linker.symbolValue, collectGlobals_cap hv h,
    symbolValue_cap _ (hv _ hobject _ ha.symbol)] at hvalue
  obtain ⟨value, hexact, hmin⟩ := map_eq_ok.1 hvalue
  rw [← hmin, Applied.exactSymbol, hexact]

theorem leNat_storedBytes (htyp : typ ≠ rX866464) (value : ℤ) :
    (leNat (storedBytes typ value) : ℤ) = value % 2 ^ 32 := by
  rw [storedBytes, if_neg htyp, leNat_leBytes]
  omega

theorem relocValue_eq {typ relocBase place : ℕ} {addend value : ℤ} (htyp : typ ≠ rX866464)
    (h : relocValue typ relocBase place addend = .ok value) :
    value = if typ = rX8664Pc32 ∨ typ = rX8664Plt32 ∨ typ = rX8664Gotpcrel then
      relocBase + addend - place else relocBase + addend := by
  unfold relocValue at h
  rw [if_neg htyp] at h
  split at h
  · next hpc =>
    rw [if_pos hpc]
    exact (ok.inj h).symm
  next hpc =>
  rw [if_neg hpc]
  split at h
  · exact (ok.inj h).symm
  · simp at h

/-- The linker computes the exact value less what the limits on the addresses take away. -/
theorem Applied.Sound.value_eq (ha : a.Sound globals)
    (hs : a.symbolValue = min (a.exactSymbol objects) u64Max) (htyp : a.typ ≠ rX866464) :
    a.stored = storedBytes a.typ (a.exactValue objects - a.lost objects) := by
  obtain ⟨value, hvalue, hstored⟩ := ha.stored
  have hplace : a.place = a.exactPlace - excess a.exactPlace := by
    have := ha.place
    unfold saturatingAdd at this
    unfold excess exactPlace
    omega
  have hbase : a.relocBase = a.exactBase objects - excess (a.exactBase objects) := by
    have hmin : ∀ n, min n u64Max = n - excess n := by
      intro n
      unfold excess
      omega
    rw [ha.base, Applied.exactBase]
    split
    · exact hmin _
    · rw [hs, hmin]
  have hle : ∀ n, excess n ≤ n := fun n => Nat.sub_le n u64Max
  have hlebase := hle (a.exactBase objects)
  have hleplace := hle a.exactPlace
  rw [hstored, relocValue_eq htyp hvalue]
  congr 1
  unfold Applied.exactValue Applied.lost Applied.isRelative
  simp only [decide_eq_true_eq]
  split
  · omega
  · omega

theorem Applied.Sound.exact_iff (ha : a.Sound globals)
    (hs : a.symbolValue = min (a.exactSymbol objects) u64Max) : a.Exact objects ↔
    a.InRange objects := by
  refine forall_congr' fun htyp => ?_
  have hfield := leNat_storedBytes htyp (a.exactValue objects - a.lost objects)
  rw [← ha.value_eq hs htyp] at hfield
  unfold Applied.extended signExtend32
  split <;> omega

/-- The symbols of a laid-out object are those of the object before. -/
theorem symbols_layoutSections (hm : AllMarked objects) : ∀ object ∈ layoutSections objects,
    ∀ symbol ∈ object.symbols, symbol.value ≤ u64Max := by
  intro object hobject symbol hsymbol
  obtain ⟨o₂, ho₂, hs₂⟩ := mem_layoutKind hobject
  obtain ⟨o₁, ho₁, hs₁⟩ := mem_layoutKind ho₂
  obtain ⟨o, ho, hs⟩ := mem_layoutKind ho₁
  exact (hm o ho).symbols symbol (by rwa [← hs, ← hs₁, ← hs₂])

/-- What a successful link went through. -/
theorem link_cases (h : link inputs entryName = .ok l) :
    ∃ selected objects segments, (∀ object ∈ selected, object.Parsed) ∧
      markLiveSections selected entryName = .ok objects ∧ l.objects = layoutSections objects ∧
      collectGlobals l.objects = .ok l.globals ∧ buildSegments l.objects = .ok segments ∧
      applyRelocations l.objects l.globals segments = .ok ⟨l.segments, l.applied⟩ := by
  unfold link linkSelected at h
  obtain ⟨selected, hselected, h⟩ := bind_eq_ok.1 h
  simp only [bind_eq_ok] at h
  obtain ⟨objects, hobjects, globals, hglobals, entry, -, segments, hsegments, -, -, state, hstate,
    h⟩ := h
  split at h
  · simp at h
  cases h
  exact ⟨selected, objects, segments, parsed_linkedObjects hselected, hobjects, rfl, hglobals,
    hsegments, hstate⟩

theorem link_appliesAll {inputs : List Bytes} {entryName : Bytes} {l : Linked}
    (h : link inputs entryName = .ok l) : l.AppliesAll := by
  obtain ⟨selected, objects, segments, -, -, -, -, -, happly⟩ := link_cases h
  exact ⟨fun object target kind rela hreloc hnone => applied_of_relocOf happly hreloc hnone,
    fun a ha => (sound_applyRelocations happly a ha).2, storesFields_applyRelocations happly⟩

/-- When the linker succeeds, it has applied every relocation of the placed sections and filled
their fields in the segments of the image. The 32-bit fields are exact if and only if the exact
values fit. -/
theorem relocations_exact_iff (inputs : List Bytes) (entryName image : Bytes)
    (h : linkObjects inputs entryName = .ok image) :
    ∃ l, link inputs entryName = .ok l ∧ image = writeElf l.segments l.entry ∧ l.AppliesAll ∧
      ((∀ a ∈ l.applied, a.Exact l.objects) ↔ ∀ a ∈ l.applied, a.InRange l.objects) := by
  obtain ⟨l, hl, rfl⟩ := map_eq_ok.1 h
  obtain ⟨selected, objects, segments, hparsed, hmark, hobjects, hglobals, -, happly⟩ :=
    link_cases hl
  have hsound := sound_applyRelocations happly
  have hv := symbols_layoutSections (allMarked_markLiveSections hparsed hmark)
  rw [← hobjects] at hv
  refine ⟨l, hl, rfl, link_appliesAll hl, forall₂_congr fun a ha => ?_⟩
  obtain ⟨hs, hfrom⟩ := hsound a ha
  exact hs.exact_iff (hs.symbolValue_eq hfrom.object_mem hv hglobals)

instance (objects : List Object) (a : Applied) : Decidable (a.Exact objects) :=
  inferInstanceAs (Decidable (_ → _))

/-- A relocatable object file: its header, its contents and its section headers. -/
def objectFile (body : Bytes) (headers : List Bytes) : Bytes :=
  objectHeader (64 + body.length) headers.length 0 ++ body ++ headers.flatten

/-- The names `_start` and `far`. -/
def farNames : Bytes := [0] ++ startName ++ [0, 0x66, 0x61, 0x72, 0]

/-- `_start` calls the absolute symbol `far` at the address `2 ^ 40`. -/
def farCall : Bytes :=
  objectFile
    ([0xe8, 0, 0, 0, 0, 0xc3, 0, 0] ++ relaEntry 1 2 rX8664Pc32 (2 ^ 64 - 4) ++ zeros 24 ++
      symEntry 1 0x12 1 0 6 ++ symEntry 8 0x10 shnAbs (2 ^ 40) 0 ++ farNames)
    [zeros 64, shdr 0 shtProgbits (shfAlloc + shfExecinstr) 64 8 0 0 16 0,
      shdr 0 shtRela 0 72 24 3 1 8 24, shdr 0 shtSymtab 0 96 72 4 1 8 24,
      shdr 0 shtStrtab 0 168 farNames.length 0 0 1 0]

theorem linkObjects_farCall : ∃ image, linkObjects [farCall] startName = .ok image := by
  have hok : (linkObjects [farCall] startName).toOption.isSome = true := by decide +kernel
  cases h : linkObjects [farCall] startName with
  | ok image => exact ⟨image, rfl⟩
  | error e => simp [h, Except.toOption] at hok

instance (objects : List Object) (a : Applied) : Decidable (a.InRange objects) :=
  inferInstanceAs (Decidable (_ → _))

theorem relocations_exact_iff_farCall :
    ∃ image l, linkObjects [farCall] startName = .ok image ∧ link [farCall] startName = .ok l ∧
      l.applied ≠ [] ∧ l.AppliesAll ∧ (∀ a ∈ l.applied, a.StoredIn l.segments []) ∧
      ((∀ a ∈ l.applied, a.Exact l.objects) ↔ ∀ a ∈ l.applied, a.InRange l.objects) := by
  obtain ⟨image, himage⟩ := linkObjects_farCall
  obtain ⟨l, hl, -, hall, hiff⟩ := relocations_exact_iff [farCall] startName image himage
  have hone : (link [farCall] startName).toOption.map (fun l => l.applied.length) = some 1 := by
    decide +kernel
  rw [hl] at hone
  obtain ⟨a, ha⟩ := length_eq_one_iff.1 (Option.some.inj hone)
  refine ⟨image, l, himage, hl, by simp [ha], hall, fun b hb => ?_, hiff⟩
  rw [ha, mem_singleton] at hb
  exact hall.fields [] b [] (by rw [hb]; exact ha)

/-- The call is cut to 32 bits without an error: the field is at offset 1 of the only segment and
has the bytes of a distance that does not reach `far`. -/
theorem relocation_overflow_accepted :
    ∃ image l, linkObjects [farCall] startName = .ok image ∧ link [farCall] startName = .ok l ∧
      (l.segments.map fun s => s.bytes.take 6) = [[0xe8, 0xfb, 0xff, 0xef, 0xbf, 0xc3]] ∧
      ¬∀ a ∈ l.applied, a.Exact l.objects := by
  obtain ⟨image, himage⟩ := linkObjects_farCall
  obtain ⟨l, hl, -⟩ := map_eq_ok.1 himage
  have hbytes : ((link [farCall] startName).toOption.map fun l =>
      l.segments.map fun s => s.bytes.take 6) = some [[0xe8, 0xfb, 0xff, 0xef, 0xbf, 0xc3]] := by
    decide +kernel
  have hnot : ((link [farCall] startName).toOption.map fun l =>
      decide (∀ a ∈ l.applied, a.Exact l.objects)) = some false := by decide +kernel
  rw [hl] at hbytes hnot
  exact ⟨image, l, himage, hl, Option.some.inj hbytes,
    of_decide_eq_false (Option.some.inj hnot)⟩

end Ristux.Linker
