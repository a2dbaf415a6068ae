import Ristux.Kernel.Changes

-- The memory of a process that exits. `exit_with_reason` clears the user pages if the process has
-- the only reference to its address space. It never has: the reference that `exit_with_reason` took
-- before stands beside the one of the process table. So an exit takes no page away, and the pages
-- stay until the process is reaped.

namespace Ristux.Kernel
open List Ristux.Lib
open Memory (PhysicalMemory)

/-- The entry of a page is as before. On a page of `P` that is copy-on-write it may have been made
writable, with a copy of the frame if others have the frame too. -/
def Mapping.Kept (P : ℕ → Prop) (before after : Mapping) : Prop :=
  after = before ∨ P before.page ∧ before.cow ∧ after.page = before.page ∧ after.cow = false

/-- The same pages are mapped, in the same way. -/
structure AddressSpace.SameMappings (P : ℕ → Prop) (before after : AddressSpace) : Prop where
  protection : after.protection = before.protection
  pages : after.userMappings.entries.map Mapping.page = before.userMappings.entries.map Mapping.page
  kept : ∀ page m, before.userMappings.get page = some m →
    ∃ m', after.userMappings.get page = some m' ∧ m.Kept P m'

namespace AddressSpace
variable {P Q : ℕ → Prop} {space before after last : AddressSpace} {phys phys' : PhysicalMemory}

theorem SameMappings.refl (space : AddressSpace) : SameMappings P space space :=
  ⟨rfl, rfl, fun _ m hm => ⟨m, hm, .inl rfl⟩⟩

theorem SameMappings.mono (h : SameMappings P before after) (hPQ : ∀ page, P page → Q page) :
    SameMappings Q before after := by
  refine ⟨h.protection, h.pages, fun page m hm => ?_⟩
  obtain ⟨m', hm', hsame | ⟨hP, hcow⟩⟩ := h.kept page m hm
  · exact ⟨m', hm', .inl hsame⟩
  · exact ⟨m', hm', .inr ⟨hPQ _ hP, hcow⟩⟩

/-- A page that has been made writable stays as it is. -/
theorem SameMappings.trans (h : SameMappings P before after) (h' : SameMappings P after last) :
    SameMappings P before last := by
  refine ⟨h'.protection.trans h.protection, h'.pages.trans h.pages, fun page m hm => ?_⟩
  obtain ⟨m', hm', hkept⟩ := h.kept page m hm
  obtain ⟨m'', hm'', hkept'⟩ := h'.kept page m' hm'
  refine ⟨m'', hm'', ?_⟩
  rcases hkept with rfl | ⟨hP, hcow, hpage, hnot⟩
  · exact hkept'
  · rcases hkept' with rfl | ⟨-, hcow', -⟩
    · exact .inr ⟨hP, hcow, hpage, hnot⟩
    · rw [hnot] at hcow'
      cases hcow'

/-- The pages of a thread id. -/
def TidPage (addr page : ℕ) : Prop := ∃ ps, pages addr 4 = some ps ∧ page ∈ ps

end AddressSpace

namespace State
variable {s t u : State} {p : Process} {i : ℕ}

/-- The pages of an address space with the thread id of a process, which its exit clears. -/
def TidPage (s : State) (i page : ℕ) : Prop :=
  ∃ m p, s.get m = some p ∧ p.addressSpace = i ∧ p.clearChildTid ≠ 0 ∧
    AddressSpace.TidPage p.clearChildTid page

/-- Every address space keeps its mappings, and every process its address space. Its thread id may
have been cleared. -/
structure KeepsMemory (s t : State) : Prop where
  mappings : ∀ i, (s.spaces i).SameMappings (s.TidPage i) (t.spaces i)
  processes : ∀ m q, t.get m = some q → ∃ p, s.get m = some p ∧ q.addressSpace = p.addressSpace ∧
    (q.clearChildTid = p.clearChildTid ∨ q.clearChildTid = 0)

theorem KeepsMemory.tidPage (h : KeepsMemory s t) {page : ℕ} (ht : t.TidPage i page) :
    s.TidPage i page := by
  obtain ⟨m, q, hq, rfl, htid, hpage⟩ := ht
  obtain ⟨p, hp, hspace, hsame | hzero⟩ := h.processes m q hq
  · rw [hsame] at htid hpage
    exact ⟨m, p, hp, hspace.symm, htid, hpage⟩
  · exact absurd hzero htid

theorem KeepsMemory.trans (h : KeepsMemory s t) (h' : KeepsMemory t u) : KeepsMemory s u where
  mappings i := (h.mappings i).trans ((h'.mappings i).mono fun _ => h.tidPage)
  processes m r hr := by
    obtain ⟨q, hq, hspace', htid'⟩ := h'.processes m r hr
    obtain ⟨p, hp, hspace, htid⟩ := h.processes m q hq
    refine ⟨p, hp, hspace'.trans hspace, ?_⟩
    rcases htid' with htid' | hzero
    · rw [htid']
      exact htid
    · exact .inr hzero

theorem KeepsMemory.refl (s : State) : KeepsMemory s s where
  mappings _ := .refl _
  processes _ q hq := ⟨q, hq, rfl, .inl rfl⟩

end State
end Ristux.Kernel
