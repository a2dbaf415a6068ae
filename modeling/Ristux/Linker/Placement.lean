import Ristux.Linker.Parsed
import Mathlib.Order.Nat
import Mathlib.Data.List.Basic
import Mathlib.Data.Nat.Bitwise

-- As long as the addresses stay small, each live section is placed at a multiple of its
-- alignment, after the sections before it.

namespace Ristux.Linker
open Lib Fallible List Nat

variable {value k : ℕ}

namespace Chain
variable (h : Chain lo l hi)
include h

end Chain

variable {s s' : Section}

theorem layoutSectionsOf_cons (kind : SegmentKind) (cursor : ℕ) (s : Section) (rest : List Section) :
    layoutSectionsOf kind cursor (s :: rest) = if goesTo kind s then
        ((layoutSectionsOf kind (saturatingAdd (align cursor (max s.addralign 1)) s.size) rest).1,
          { s with outAddr := align cursor (max s.addralign 1), segment := some kind } ::
            (layoutSectionsOf kind
              (saturatingAdd (align cursor (max s.addralign 1)) s.size) rest).2)
      else ((layoutSectionsOf kind cursor rest).1, s :: (layoutSectionsOf kind cursor rest).2) :=
  rfl

variable {sections : List Section} {kind : SegmentKind}

/-- The layout sets the address and the segment of a section, nothing else. -/
def Section.Same (s s' : Section) : Prop :=
  s' = { s with outAddr := s'.outAddr, segment := s'.segment }

theorem Section.Same.trans (h : s.Same t) (h' : t.Same u) : s.Same u := by
  unfold Section.Same at *
  rw [h', h]

theorem Section.Same.goesTo (h : s.Same s') (kind : SegmentKind) :
    goesTo kind s' = goesTo kind s := by
  rw [h]
  rfl

theorem mem_layoutSectionsOf :
    ∀ {cursor : ℕ} {s' : Section}, s' ∈ (layoutSectionsOf kind cursor sections).2 →
      ∃ s ∈ sections, s.Same s' ∧ s'.segment = if goesTo kind s then some kind else s.segment := by
  induction sections with
  | nil => simp [layoutSectionsOf]
  | cons t rest ih =>
    intro cursor s' hs
    rw [layoutSectionsOf_cons] at hs
    by_cases hgo : goesTo kind t = true
    · rw [if_pos hgo] at hs
      rcases mem_cons.1 hs with rfl | hs
      · exact ⟨t, mem_cons_self, rfl, by rw [if_pos hgo]⟩
      · obtain ⟨s, hmem, h⟩ := ih hs
        exact ⟨s, mem_cons_of_mem _ hmem, h⟩
    rw [if_neg hgo] at hs
    rcases mem_cons.1 hs with rfl | hs
    · exact ⟨s', mem_cons_self, rfl, by rw [if_neg hgo]⟩
    · obtain ⟨s, hmem, h⟩ := ih hs
      exact ⟨s, mem_cons_of_mem _ hmem, h⟩

theorem layoutSectionsOf_append (kind : SegmentKind) (l l' : List Section) :
    ∀ cursor : ℕ, layoutSectionsOf kind cursor (l ++ l') =
      ((layoutSectionsOf kind (layoutSectionsOf kind cursor l).1 l').1,
        (layoutSectionsOf kind cursor l).2 ++
          (layoutSectionsOf kind (layoutSectionsOf kind cursor l).1 l').2) := by
  induction l with
  | nil => exact fun _ => rfl
  | cons s l ih =>
    intro cursor
    rw [cons_append, layoutSectionsOf_cons, layoutSectionsOf_cons]
    split <;> simp only [ih, cons_append]

def allSections (objects : List Object) : List Section := objects.flatMap (·.sections)

theorem layoutKind_sections (kind : SegmentKind) (objects : List Object) :
    ∀ cursor : ℕ, (layoutKind kind cursor objects).1 =
          (layoutSectionsOf kind cursor (allSections objects)).1 ∧
        allSections (layoutKind kind cursor objects).2 =
          (layoutSectionsOf kind cursor (allSections objects)).2 := by
  induction objects with
  | nil => exact fun _ => ⟨rfl, rfl⟩
  | cons object objects ih =>
    intro cursor
    unfold allSections at ih ⊢
    rw [flatMap_cons, layoutSectionsOf_append]
    obtain ⟨h1, h2⟩ := ih (layoutSectionsOf kind cursor object.sections).1
    exact ⟨h1, by rw [← h2]; rfl⟩

variable {objects : List Object}

/-- The layout leaves the symbols of the objects alone. -/
theorem mem_layoutKind : ∀ {cursor : ℕ} {object' : Object},
    object' ∈ (layoutKind kind cursor objects).2 → ∃ object ∈ objects,
    object'.symbols = object.symbols := by
  induction objects with
  | nil => simp [layoutKind]
  | cons object objects ih =>
    intro cursor object' h
    rcases mem_cons.1 h with rfl | h
    · exact ⟨object, mem_cons_self, rfl⟩
    · obtain ⟨o, ho, heq⟩ := ih h
      exact ⟨o, mem_cons_of_mem _ ho, heq⟩

/-- The sections after each of the three kinds. -/
def textLayout (objects : List Object) : ℕ × List Section :=
  layoutSectionsOf .text base (allSections objects)

def rodataLayout (objects : List Object) : ℕ × List Section :=
  layoutSectionsOf .rodata (align (textLayout objects).1 page) (textLayout objects).2

def dataLayout (objects : List Object) : ℕ × List Section :=
  layoutSectionsOf .data (align (rodataLayout objects).1 page) (rodataLayout objects).2

theorem allSections_layoutSections (objects : List Object) :
    allSections (layoutSections objects) = (dataLayout objects).2 := by
  obtain ⟨h1, h2⟩ := layoutKind_sections .text objects base
  generalize ht : layoutKind .text base objects = t at h1 h2
  obtain ⟨h3, h4⟩ := layoutKind_sections .rodata t.2 (align t.1 page)
  generalize hr : layoutKind .rodata (align t.1 page) t.2 = r at h3 h4
  have heq : layoutSections objects = (layoutKind .data (align r.1 page) r.2).2 := by
    rw [← hr, ← ht]
    rfl
  rw [heq, (layoutKind_sections .data r.2 (align r.1 page)).2, h3, h4, h1, h2]
  rfl

/-- Where a section goes. -/
def destination (s : Section) : Option SegmentKind := if s.live then segmentFor s else none

theorem mem_layoutSections (hm : AllMarked objects) (hs : s' ∈ allSections (layoutSections objects)) :
    ∃ s ∈ allSections objects, s.Same s' ∧ s'.segment = destination s := by
  rw [allSections_layoutSections] at hs
  obtain ⟨s₂, hs₂, hsame₂, hseg₂⟩ := mem_layoutSectionsOf hs
  obtain ⟨s₁, hs₁, hsame₁, hseg₁⟩ := mem_layoutSectionsOf hs₂
  obtain ⟨s, hs₀, hsame, hseg⟩ := mem_layoutSectionsOf hs₁
  refine ⟨s, hs₀, (hsame.trans hsame₁).trans hsame₂, ?_⟩
  obtain ⟨object, hobject, hin⟩ := mem_flatMap.1 hs₀
  have hload := (hm object hobject).live s hin
  have hnone := (hm object hobject).segment s hin
  rw [hseg₂, hseg₁, hseg, hsame₁.goesTo, hsame.goesTo, hsame.goesTo, hnone]
  unfold destination goesTo
  cases hlive : s.live with
  | false => simp
  | true =>
    have hload := hload hlive
    unfold isLoadableSection at hload
    cases hk : segmentFor s with
    | none => simp [hk] at hload
    | some k =>
      have htyp : (s.typ == shtProgbits || s.typ == shtNobits) = true := by simp_all
      cases k <;> simp [htyp]

end Ristux.Linker
