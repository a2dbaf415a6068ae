import Ristux.Linker.Parsed
import Mathlib.Algebra.Order.BigOperators.Group.List

-- The loops of the linker end by themselves. The bounds that the model puts on their rounds are
-- never reached: a larger bound gives the same result, and a section that is marked leaves the
-- unmarked ones for the work list.

namespace Ristux.Linker
open Lib Fallible List

theorem parseArchiveFrom_fuel (bytes : Bytes) : ∀ {fuel' offset : ℕ}, fuel ≤ fuel' →
    bytes.length < offset + fuel → parseArchiveFrom bytes fuel' offset =
    parseArchiveFrom bytes fuel offset := by
  induction fuel with
  | zero =>
    intro fuel' offset _ hlen
    cases fuel' with
    | zero => rfl
    | succ fuel' =>
      have hnot : ¬offset < bytes.length := by omega
      simp [parseArchiveFrom, hnot]
  | succ fuel ih =>
    intro fuel' offset hle hlen
    obtain ⟨fuel', rfl⟩ : ∃ k, fuel' = k + 1 := ⟨fuel' - 1, by omega⟩
    unfold parseArchiveFrom
    split
    · refine bind_congr_ok fun ⟨member, next⟩ hm => ?_
      have hnext := (parseArchiveMember_eq hm).1
      dsimp only
      rw [ih (by omega) (by omega)]
    · rfl

/-- A round that takes any members leaves fewer. -/
theorem length_left_lt {members : List Object}
    (h : ¬(members.filter (objectDefinesAny · names)).isEmpty = true) :
    (members.filter (!objectDefinesAny · names)).length < members.length := by
  have hsplit := length_eq_length_filter_add (l := members) (objectDefinesAny · names)
  have hpos : 0 < (members.filter (objectDefinesAny · names)).length :=
    length_pos_iff.2 fun hnil => h (List.isEmpty_iff.2 hnil)
  omega

theorem selectLoop_fuel (roots : List Bytes) : ∀ {fuel' : ℕ} {objects members : List Object},
    fuel ≤ fuel' → members.length < fuel → selectLoop roots fuel' objects members =
    selectLoop roots fuel objects members := by
  induction fuel with
  | zero => intro fuel' objects members _ h; omega
  | succ fuel ih =>
    intro fuel' objects members hle hlen
    obtain ⟨fuel', rfl⟩ : ∃ k, fuel' = k + 1 := ⟨fuel' - 1, by omega⟩
    refine bind_congr_ok fun unresolved _ => ?_
    dsimp only
    split
    · rfl
    next hneeded =>
    have hlt := length_left_lt hneeded
    exact ih (by omega) (by omega)

variable (objects : List Object)

/-- The number of sections that are not marked. -/
def unmarked : ℕ :=
  (objects.map fun object => object.sections.countP fun s => !s.live).sum

variable {place : Place}

theorem countP_modify {f : α → α} (hp : p a = true) (hf : p (f a) = false) :
    ∀ {l : List α} {i : ℕ}, l[i]? = some a → (l.modify i f).countP p + 1 = l.countP p := by
  intro l
  induction l with
  | nil => simp
  | cons b l ih =>
    intro i hi
    cases i with
    | zero =>
      cases hi
      simp [hp, hf]
    | succ i =>
      have := ih (by simpa using hi)
      simp only [modify_succ_cons, countP_cons]
      omega

theorem sum_map_modify {f : α → α} (h : g (f a) + 1 = g a) :
    ∀ {l : List α} {i : ℕ}, l[i]? = some a → ((l.modify i f).map g).sum + 1 = (l.map g).sum := by
  intro l
  induction l with
  | nil => simp
  | cons b l ih =>
    intro i hi
    cases i with
    | zero =>
      cases hi
      simp
      omega
    | succ i =>
      have := ih (by simpa using hi)
      simp only [modify_succ_cons, map_cons, sum_cons]
      omega

/-- A section that is marked moves from the unmarked ones to the work list. -/
theorem markSection_measure (place : Place) (work : List Place) :
    (markSection objects place work).2.length + unmarked (markSection objects place work).1 =
      work.length + unmarked objects := by
  unfold markSection
  split
  · rfl
  next s hs =>
  split
  · rfl
  next hlive =>
  obtain ⟨object, hobject, hsection⟩ := Option.bind_eq_some_iff.1 hs
  have hnot : (!s.live) = true := by simp_all
  have hcount := countP_modify (p := fun s : Section => !s.live)
    (f := fun s => { s with live := true }) hnot rfl hsection
  have hsum : unmarked (setLive objects place) + 1 = unmarked objects :=
    sum_map_modify (g := fun o : Object => o.sections.countP fun s : Section => !s.live)
      hcount hobject
  dsimp only
  rw [length_cons]
  omega

/-- The section that a relocation with this symbol of object `i` makes live, if any. -/
def referredPlace (definitions : Definitions) (i : ℕ) (symbol : Symbol) : Option Place :=
  if symbol.shndx = shnAbs then none
  else if symbol.shndx ≠ shnUndef then some (i, symbol.shndx)
  else if symbol.bind = stbWeak then none
  else (definitions.get symbol.name).map (·.place)

def markPlace (state : List Object × List Place) : Option Place → List Object × List Place
  | none => state
  | some place => markSection state.1 place state.2

theorem markSymbolByName_eq (name : Bytes) : markSymbolByName definitions name state =
    markPlace state ((definitions.get name).map (·.place)) := by
  unfold markSymbolByName
  cases definitions.get name <;> rfl

theorem markRelocationTarget_eq (h : markRelocationTarget definitions i state k = .ok state') :
    ∃ symbol, (state.1[i]?.bind fun object => object.symbols[k]?) = some symbol ∧
      state' = markPlace state (referredPlace definitions i symbol) := by
  obtain ⟨symbol, hsymbol, h⟩ := bind_eq_ok.1 h
  refine ⟨symbol, okOr_eq_ok.1 hsymbol, ?_⟩
  unfold referredPlace
  split_ifs at h ⊢ <;> cases h
  · rfl
  · rfl
  · rfl
  · exact markSymbolByName_eq _

theorem mem_referredPlace : place ∈ referredPlace definitions i symbol ↔
      symbol.shndx ≠ shnAbs ∧ symbol.shndx ≠ shnUndef ∧ place = (i, symbol.shndx) ∨
      symbol.shndx = shnUndef ∧ symbol.bind ≠ stbWeak ∧
        ∃ d, definitions.get symbol.name = some d ∧ place = d.place := by
  have hne : shnUndef ≠ shnAbs := by decide
  unfold referredPlace
  split_ifs <;> simp_all [eq_comm]

theorem markPlace_measure (state : List Object × List Place) (place : Option Place) :
    (markPlace state place).2.length + unmarked (markPlace state place).1 =
      state.2.length + unmarked state.1 := by
  cases place with
  | none => rfl
  | some place => exact markSection_measure _ _ _

theorem markStep_measure {objects : List Object} {work : List Place}
    (h : markStep definitions objects place work = .ok state) :
    state.2.length + unmarked state.1 = work.length + unmarked objects := by
  obtain ⟨object, -, h⟩ := bind_eq_ok.1 h
  obtain ⟨symbols, -, h⟩ := bind_eq_ok.1 h
  refine foldlM_invariant
    (P := fun t : List Object × List Place => t.2.length + unmarked t.1 =
      work.length + unmarked objects) rfl (fun index _ t t' ht hs => ?_) h
  obtain ⟨symbol, -, rfl⟩ := markRelocationTarget_eq hs
  rw [markPlace_measure, ht]

theorem unmarked_le_sectionCount : unmarked objects ≤ sectionCount objects :=
  sum_le_sum fun _ _ => countP_le_length

end Ristux.Linker
