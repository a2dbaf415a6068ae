import Ristux.Kernel.Files
import Ristux.Lib.Slots

-- The open files change by four operations: closing, duplicating, making a pipe and moving bytes.
-- They keep the number of readers and writers that a pipe records equal to the number of slots
-- that hold its ends.

namespace Ristux.Kernel
open Relation List Option PipeState State Lib.Slots

/-- What no opening or closing changes about a pipe. -/
def PipeState.content (p : PipeState) : List UInt8 × ℕ := (p.buffer, p.capacity)

variable (entries : List FdEntry)

namespace Vfs
variable {u v w : Vfs} {fd i : ℕ} {h : OpenHandle}

/-- One operation on the open files. -/
inductive Step : Vfs → Vfs → Prop where
  | close (v : Vfs) (fd : ℕ) : Step v (v.close fd).2
  | duplicate {v w : Vfs} {fd dup : ℕ} (h : v.duplicateFd fd = .ok (dup, w)) : Step v w
  | create (v : Vfs) (capacity : ℕ) : Step v (v.createPipe capacity).2
  | move {v : Vfs} {pipe : ℕ} {p : PipeState} (h : v.pipes[pipe]? = some p)
      (buffer : List UInt8) : Step v (v.setPipe pipe { p with buffer := buffer })
  | memory (v : Vfs) (fileRoom pipeRoom : ℕ) : Step v { v with fileRoom, pipeRoom }

def Steps : Vfs → Vfs → Prop := ReflTransGen Step

theorem steps_closeAll (v : Vfs) (fds : List ℕ) : v.Steps (v.closeAll fds) := by
  induction fds generalizing v with
  | nil => exact .refl
  | cons fd fds ih => exact .head (.close v fd) (ih _)

theorem steps_duplicateFdEntries :
    ∀ (v : Vfs) (done : List FdEntry), v.Steps (duplicateFdEntries v done entries).2 := by
  induction entries with
  | nil => exact fun _ _ => .refl
  | cons entry entries ih =>
    intro v done
    unfold duplicateFdEntries
    split
    · exact steps_closeAll v _
    · next hd => exact .head (.duplicate hd) (ih _ _)

theorem steps_duplicateSharedMappings (fds : List ℕ) :
    ∀ (v : Vfs) (done : List ℕ), v.Steps (duplicateSharedMappings v done fds).2 := by
  induction fds with
  | nil => exact fun _ _ => .refl
  | cons fd fds ih =>
    intro v done
    unfold duplicateSharedMappings
    split
    · exact steps_closeAll v _
    · next hd => exact .head (.duplicate hd) (ih _ _)

theorem steps_closeOnExecFds (n : ℕ) : ∀ (index : ℕ) (fds : List FdEntry) (v : Vfs),
      v.Steps (closeOnExecFds n index fds v).2 := by
  induction n with
  | zero => exact fun _ _ _ => .refl
  | succ n ih =>
    intro index fds v
    unfold closeOnExecFds
    split
    · exact .refl
    split
    · exact .head (.close v _) (ih _ _ _)
    · exact ih _ _ _

theorem handle_eq_some : v.handle i = some h ↔ v.openFiles[i]? = some (some h) := by
  simp [handle, join_eq_some_iff]

theorem mem_openFiles (hi : v.handle i = some h) : some h ∈ v.openFiles :=
  mem_of_getElem? (handle_eq_some.1 hi)

theorem exists_handle (hmem : some h ∈ v.openFiles) : ∃ i, v.handle i = some h := by
  obtain ⟨i, hi⟩ := mem_iff_getElem?.1 hmem
  exact ⟨i, handle_eq_some.2 hi⟩

/-- What the operations on one handle leave alone. -/
structure SameFiles (v w : Vfs) : Prop where
  openFiles : w.openFiles = v.openFiles
  contents : w.pipes.map content = v.pipes.map content

variable {pipe : ℕ} {p q : PipeState}

theorem map_content_set {pipes : List PipeState} (hp : pipes[pipe]? = some p)
    (hq : q.content = p.content) : (pipes.set pipe q).map content = pipes.map content := by
  obtain ⟨hlt, rfl⟩ := List.getElem?_eq_some_iff.1 hp
  refine ext_getElem? fun k => ?_
  rw [map_set, hq, getElem?_set]
  split
  · next hk => subst hk; simp [hlt]
  · rfl

theorem sameFiles_setPipe (hp : v.pipes[pipe]? = some p) (hq : q.content = p.content) :
    SameFiles v (v.setPipe pipe q) :=
  ⟨rfl, map_content_set hp hq⟩

theorem sameFiles_retainHandle (hw : v.retainHandle h = .ok w) : SameFiles v w := by
  unfold retainHandle at hw
  repeat' split at hw
  all_goals cases hw
  · next hp => exact sameFiles_setPipe hp rfl
  · next hp => exact sameFiles_setPipe hp rfl
  · exact ⟨rfl, rfl⟩

theorem sameFiles_releaseHandle (hw : v.releaseHandle h = .ok w) : SameFiles v w := by
  unfold releaseHandle at hw
  repeat' split at hw
  all_goals cases hw
  · next hp => exact sameFiles_setPipe hp rfl
  · next hp => exact sameFiles_setPipe hp rfl
  · exact ⟨rfl, rfl⟩

/-- Closing empties the slot. -/
theorem close_files (v : Vfs) (fd : ℕ) : (v.close fd).2.openFiles =
        (if (v.handle fd).isSome then v.openFiles.set fd none else v.openFiles) ∧
      (v.close fd).2.pipes.map content = v.pipes.map content := by
  unfold close
  cases hfd : v.handle fd with
  | none => exact ⟨rfl, rfl⟩
  | some h =>
    dsimp only
    split
    · exact ⟨rfl, rfl⟩
    next w hw =>
    have hsame := sameFiles_releaseHandle hw
    exact ⟨hsame.openFiles, hsame.contents⟩

theorem handle_close_of_ne (hi : i ≠ fd) : (v.close fd).2.handle i = v.handle i := by
  rw [handle, (close_files v fd).1]
  split
  · rw [getElem?_set_ne (Ne.symm hi)]
    rfl
  · rfl

theorem handle_placeHandle_of_ne (hi : i ≠ (v.placeHandle h).1) :
    (v.placeHandle h).2.handle i = v.handle i := by
  unfold placeHandle at hi ⊢
  split at hi
  · next hf => exact (join_set (free_of_findIdx? hf).1).trans (if_neg hi)
  · exact join_append.trans (if_neg hi)

/-- A new handle goes into a slot that is free. -/
theorem handle_placeHandle_fst (v : Vfs) (h : OpenHandle) :
    v.handle (v.placeHandle h).1 = none := by
  unfold placeHandle
  split
  · next i hf => exact (free_of_findIdx? hf).2
  · simp [handle]

theorem placeHandle_pipes (v : Vfs) (h : OpenHandle) : (v.placeHandle h).2.pipes = v.pipes := by
  unfold placeHandle
  split <;> rfl

-- The slots that were reserved are still there when the handles are placed, so that the
-- reservation which `push_open_handle` makes itself never fails.

def HasRoom (v : Vfs) (count : ℕ) : Prop :=
  count ≤ v.openFiles.countP isNone ∨
    v.openFiles.length + count ≤ v.fileRoom + v.openFiles.countP isNone

theorem reserve_cases (v : Vfs) (count : ℕ) :
    v.reserveOpenHandleSlots count = .error .outOfMemory ∨
      v.reserveOpenHandleSlots count = .ok () ∧ v.HasRoom count := by
  unfold reserveOpenHandleSlots HasRoom
  dsimp only
  split_ifs with hfree hroom
  · exact .inr ⟨rfl, .inl hfree⟩
  · exact .inr ⟨rfl, .inr (by omega)⟩
  · exact .inl rfl

theorem HasRoom.pushOpenHandle (hv : v.HasRoom 1) (h : OpenHandle) :
    v.pushOpenHandle h = .ok (v.placeHandle h) := by
  unfold Vfs.pushOpenHandle reserveOpenHandleSlots
  dsimp only
  by_cases hfree : 1 ≤ v.openFiles.countP isNone
  · rw [if_pos hfree]
    rfl
  · have hroom := hv.resolve_left hfree
    rw [if_neg hfree, if_pos (by omega)]
    rfl

theorem HasRoom.placeHandle (hv : v.HasRoom 2) (h : OpenHandle) :
    (v.placeHandle h).2.HasRoom 1 := by
  unfold Vfs.placeHandle
  split
  · next i hf =>
    obtain ⟨hlt, hnone, -⟩ := findIdx?_eq_some_iff_getElem.1 hf
    have hcount : (v.openFiles.set i (some h)).countP isNone =
        v.openFiles.countP isNone - 1 := by
      rw [countP_set hlt, if_pos hnone]
      rfl
    have hpos : 0 < v.openFiles.countP isNone :=
      countP_pos_iff.2 ⟨_, getElem_mem hlt, hnone⟩
    unfold HasRoom at hv ⊢
    dsimp only
    rw [hcount, length_set]
    omega
  · next hf =>
    have hzero : v.openFiles.countP isNone = 0 := by
      simpa [countP_eq_zero, isSome_iff_ne_none] using hf
    unfold HasRoom at hv ⊢
    simp only [countP_append, length_append, length_singleton, hzero]
    omega

/-- A duplicate of a handle: the handle is retained and placed. -/
theorem duplicateFd_eq_ok {dup : ℕ} (hd : v.duplicateFd fd = .ok (dup, w)) :
    ∃ h u, v.retainHandle h = .ok u ∧ u.placeHandle h = (dup, w) := by
  unfold duplicateFd at hd
  split at hd
  · cases hd
  next h _ =>
  split at hd
  · cases hd
  split at hd
  · cases hd
  next u hu =>
  refine ⟨h, u, hu, ?_⟩
  unfold pushOpenHandle at hd
  cases hres : u.reserveOpenHandleSlots 1 with
  | error e => rw [hres] at hd; cases hd
  | ok _ => rw [hres] at hd; exact Except.ok.inj hd

/-- Either there is no memory and nothing changes, or both ends are placed. -/
theorem createPipe_cases (v : Vfs) (capacity : ℕ) :
    v.createPipe capacity = (.error .outOfMemory, v) ∨ ∃ r w,
      (v.addPipe capacity).placeHandle (.pipeRead v.pipes.length) = r ∧
      r.2.placeHandle (.pipeWrite v.pipes.length) = w ∧
      v.createPipe capacity = (.ok (r.1, w.1), w.2) := by
  unfold createPipe
  rcases reserve_cases v 2 with herr | ⟨hok, hroom⟩
  · rw [herr]
    exact .inl rfl
  rw [hok]
  dsimp only
  split_ifs with hfull
  · exact .inl rfl
  have hnew : (v.addPipe capacity).HasRoom 2 := hroom
  have hone : (v.addPipe capacity).HasRoom 1 := by
    unfold HasRoom at hnew ⊢
    omega
  right
  refine ⟨_, _, rfl, rfl, ?_⟩
  rw [hone.pushOpenHandle]
  dsimp only
  rw [(hnew.placeHandle _).pushOpenHandle]

/-- Every slot is as it was, but for the free ones and those of the list, and no byte has
moved. -/
structure Leaves (closed : List ℕ) (v w : Vfs) : Prop where
  slots : ∀ i h, i ∉ closed → v.handle i = some h → w.handle i = some h
  contents : v.pipes.map content <+: w.pipes.map content

variable {closed : List ℕ}

theorem Leaves.refl (closed : List ℕ) (v : Vfs) : Leaves closed v v :=
  ⟨fun _ _ _ hi => hi, prefix_refl _⟩

theorem Leaves.trans (h₁ : Leaves closed u v) (h₂ : Leaves closed v w) : Leaves closed u w :=
  ⟨fun i h hi hu => h₂.slots i h hi (h₁.slots i h hi hu), h₁.contents.trans h₂.contents⟩

theorem Leaves.of_nil (h₁ : Leaves [] v w) : Leaves closed v w :=
  ⟨fun i h _ => h₁.slots i h (not_mem_nil), h₁.contents⟩

/-- A slot that is free in the first state stays out of consideration. -/
theorem Leaves.free (h₁ : Leaves [] v w) (hi : w.handle i = none) : v.handle i = none := by
  cases hv : v.handle i with
  | none => rfl
  | some h => rw [h₁.slots i h not_mem_nil hv] at hi; cases hi

theorem Leaves.close (h₁ : Leaves closed u v) (hfd : fd ∈ closed ∨ u.handle fd = none) :
    Leaves closed u (v.close fd).2 := by
  refine ⟨fun i h hi hu => ?_, ?_⟩
  · have hne : i ≠ fd := by
      rintro rfl
      rcases hfd with hfd | hfd
      · exact hi hfd
      · rw [hu] at hfd
        cases hfd
    rw [handle_close_of_ne hne]
    exact h₁.slots i h hi hu
  · rw [(close_files v fd).2]
    exact h₁.contents

theorem Leaves.closeAll (h₁ : Leaves closed u v)
    (hfds : ∀ fd ∈ fds, fd ∈ closed ∨ u.handle fd = none) : Leaves closed u (v.closeAll fds) := by
  induction fds generalizing v with
  | nil => exact h₁
  | cons fd fds ih =>
    exact ih (h₁.close (hfds fd mem_cons_self)) fun fd' hfd' =>
      hfds fd' (mem_cons_of_mem _ hfd')

theorem leaves_placeHandle (v : Vfs) (h : OpenHandle) : Leaves [] v (v.placeHandle h).2 := by
  refine ⟨fun i h' _ hi => ?_, ?_⟩
  · rw [handle_placeHandle_of_ne, hi]
    rintro rfl
    rw [handle_placeHandle_fst] at hi
    cases hi
  · rw [placeHandle_pipes]

theorem leaves_of_sameFiles (h₁ : SameFiles v w) : Leaves [] v w := by
  refine ⟨fun i h _ hi => ?_, by rw [h₁.contents]⟩
  rw [handle, h₁.openFiles]
  exact hi

/-- A duplicate takes a free slot. -/
theorem leaves_duplicateFd (hd : v.duplicateFd fd = .ok (dup, w)) : Leaves [] v w ∧
    v.handle dup = none := by
  obtain ⟨h, u, hu, heq⟩ := duplicateFd_eq_ok hd
  have hsame := leaves_of_sameFiles (sameFiles_retainHandle hu)
  obtain ⟨rfl, rfl⟩ := Prod.mk.inj heq
  exact ⟨hsame.trans (leaves_placeHandle u h), hsame.free (handle_placeHandle_fst u h)⟩

theorem duplicateFd_contents (hd : v.duplicateFd fd = .ok (dup, w)) :
    w.pipes.map content = v.pipes.map content := by
  obtain ⟨h, u, hu, heq⟩ := duplicateFd_eq_ok hd
  obtain rfl : w = (u.placeHandle h).2 := congrArg Prod.snd heq.symm
  rw [placeHandle_pipes]
  exact (sameFiles_retainHandle hu).contents

theorem leaves_createPipe (v : Vfs) (capacity : ℕ) :
    Leaves [] v (v.createPipe capacity).2 ∧ ∀ readFd writeFd,
      (v.createPipe capacity).1 = .ok (readFd, writeFd) →
        v.handle readFd = none ∧ v.handle writeFd = none := by
  rcases createPipe_cases v capacity with heq | ⟨r, w, rfl, rfl, heq⟩
  · rw [heq]
    exact ⟨.refl _ _, fun _ _ h => by cases h⟩
  have hnew : Leaves [] v (v.addPipe capacity) := ⟨fun _ _ _ hi => hi, by simp [addPipe]⟩
  have hread := hnew.trans (leaves_placeHandle _ (.pipeRead v.pipes.length))
  rw [heq]
  refine ⟨hread.trans (leaves_placeHandle _ (.pipeWrite v.pipes.length)), fun _ _ h => ?_⟩
  cases h
  exact ⟨hnew.free (handle_placeHandle_fst _ _), hread.free (handle_placeHandle_fst _ _)⟩

theorem leaves_duplicateFdEntries :
    ∀ (v : Vfs) (done : List FdEntry), Leaves [] u v → (∀ e ∈ done, u.handle e.vfsFd = none) →
      Leaves [] u (duplicateFdEntries v done entries).2 ∧
        ∀ fds, (duplicateFdEntries v done entries).1 = .ok fds →
          ∀ e ∈ fds, u.handle e.vfsFd = none := by
  induction entries with
  | nil =>
    intro v done hv hdone
    refine ⟨hv, fun fds hfds => ?_⟩
    cases hfds
    exact hdone
  | cons entry entries ih =>
    intro v done hv hdone
    unfold duplicateFdEntries
    split
    · exact ⟨hv.closeAll (forall_mem_map.2 fun e he => .inr (hdone e he)), by simp⟩
    next dup w hd =>
    obtain ⟨hw, hfree⟩ := leaves_duplicateFd hd
    refine ih w _ (hv.trans hw) fun e he => ?_
    rcases mem_append.1 he with he | he
    · exact hdone e he
    · rw [mem_singleton.1 he]
      exact hv.free hfree

theorem leaves_duplicateSharedMappings (fds : List ℕ) :
    ∀ (v : Vfs) (done : List ℕ), Leaves [] u v → (∀ fd ∈ done, u.handle fd = none) →
      Leaves [] u (duplicateSharedMappings v done fds).2 := by
  induction fds with
  | nil => exact fun _ _ hv _ => hv
  | cons fd fds ih =>
    intro v done hv hdone
    unfold duplicateSharedMappings
    split
    · exact hv.closeAll fun fd' hfd' => .inr (hdone fd' hfd')
    next dup w hd =>
    obtain ⟨hw, hfree⟩ := leaves_duplicateFd hd
    refine ih w _ (hv.trans hw) fun fd' hfd' => ?_
    rcases mem_append.1 hfd' with h | h
    · exact hdone fd' h
    · rw [mem_singleton.1 h]
      exact hv.free hfree

theorem mem_of_mem_swapRemove (ha : a ∈ State.swapRemove l k) : a ∈ l := by
  unfold State.swapRemove at ha
  split at ha
  · exact ha
  next last hlast =>
  rcases mem_or_eq_of_mem_set (mem_of_mem_dropLast ha) with h | rfl
  · exact h
  · exact mem_of_getLast? hlast

theorem leaves_closeOnExecFds (n : ℕ) :
    ∀ (index : ℕ) (fds : List FdEntry) (v : Vfs), Leaves closed u v →
      (∀ e ∈ fds, e.fdFlags &&& fdCloexec ≠ 0 → e.vfsFd ∈ closed) →
      Leaves closed u (closeOnExecFds n index fds v).2 := by
  induction n with
  | zero => exact fun _ _ _ hv _ => hv
  | succ n ih =>
    intro index fds v hv hfds
    unfold closeOnExecFds
    split
    · exact hv
    next entry he =>
    split
    · next hflag =>
      exact ih _ _ _ (hv.close (.inl (hfds entry (mem_of_getElem? he) hflag)))
        fun e hmem => hfds e (mem_of_mem_swapRemove hmem)
    · exact ih _ _ _ hv hfds

/-- How many open ends of this kind a pipe records. -/
def recorded (v : Vfs) : OpenHandle → ℕ
  | .pipeRead pipe => (v.pipes[pipe]?).elim 0 readers
  | .pipeWrite pipe => (v.pipes[pipe]?).elim 0 writers
  | .other => 0

/-- Each pipe records how many slots hold each of its ends. -/
def Counted (v : Vfs) : Prop := ∀ h, h ≠ .other → v.recorded h = v.openFiles.count (some h)

theorem recorded_setPipe (hp : v.pipes[pipe]? = some p) (h : OpenHandle) :
    (v.setPipe pipe q).recorded h =
      if h = .pipeRead pipe then q.readers else if h = .pipeWrite pipe then q.writers
      else v.recorded h := by
  have hlt : pipe < v.pipes.length := (List.getElem?_eq_some_iff.1 hp).1
  cases h with
  | other => simp [recorded]
  | pipeRead k =>
    by_cases hk : k = pipe
    · simp [recorded, setPipe, hk, hlt]
    · simp [recorded, setPipe, hk, getElem?_set_ne (Ne.symm hk)]
  | pipeWrite k =>
    by_cases hk : k = pipe
    · simp [recorded, setPipe, hk, hlt]
    · simp [recorded, setPipe, hk, getElem?_set_ne (Ne.symm hk)]

theorem recorded_retainHandle (hw : v.retainHandle h = .ok w) (h' : OpenHandle)
    (hne : h' ≠ .other) : w.recorded h' = v.recorded h' + if h' = h then 1 else 0 := by
  cases h with
  | other =>
    cases hw
    simp [hne]
  | pipeRead pipe =>
    simp only [retainHandle] at hw
    split at hw
    · cases hw
    next p hp =>
    cases hw
    rw [recorded_setPipe hp]
    split_ifs <;> simp_all [recorded, addReader]
  | pipeWrite pipe =>
    simp only [retainHandle] at hw
    split at hw
    · cases hw
    next p hp =>
    cases hw
    rw [recorded_setPipe hp]
    split_ifs <;> simp_all [recorded, addWriter]

theorem recorded_releaseHandle (hw : v.releaseHandle h = .ok w) (h' : OpenHandle)
    (hne : h' ≠ .other) : w.recorded h' = v.recorded h' - if h' = h then 1 else 0 := by
  cases h with
  | other =>
    cases hw
    simp [hne]
  | pipeRead pipe =>
    simp only [releaseHandle] at hw
    split at hw
    · cases hw
    next p hp =>
    cases hw
    rw [recorded_setPipe hp]
    split_ifs <;> simp_all [recorded, closeReader]
  | pipeWrite pipe =>
    simp only [releaseHandle] at hw
    split at hw
    · cases hw
    next p hp =>
    cases hw
    rw [recorded_setPipe hp]
    split_ifs <;> simp_all [recorded, closeWriter]

/-- A handle of a pipe that is there can be released. -/
theorem recorded_of_releaseHandle_error (he : v.releaseHandle h = .error e) :
    h ≠ .other ∧ v.recorded h = 0 := by
  unfold releaseHandle at he
  repeat' split at he
  all_goals cases he
  all_goals next hp => exact ⟨by simp, by simp [recorded, hp]⟩

theorem count_placeHandle (v : Vfs) (h h' : OpenHandle) :
    (v.placeHandle h).2.openFiles.count (some h') =
      v.openFiles.count (some h') + if h' = h then 1 else 0 := by
  unfold placeHandle
  split
  · next i hf =>
    obtain ⟨hlt, hnone, -⟩ := findIdx?_eq_some_iff_getElem.1 hf
    have hslot : v.openFiles[i] = none := by simpa using hnone
    rw [count_set hlt, hslot]
    by_cases hh : h' = h
    · simp [hh]
    · simp [hh, Ne.symm hh]
  · by_cases hh : h' = h
    · simp [hh]
    · simp [hh, Ne.symm hh]

theorem recorded_placeHandle (v : Vfs) (h h' : OpenHandle) :
    (v.placeHandle h).2.recorded h' = v.recorded h' := by
  cases h' <;> simp only [recorded, placeHandle_pipes]

section
variable (hv : v.Counted)
include hv

theorem Counted.close (fd : ℕ) : (v.close fd).2.Counted := by
  unfold Vfs.close
  cases hfd : v.handle fd with
  | none => exact hv
  | some h =>
    have hslot := handle_eq_some.1 hfd
    obtain ⟨hlt, heq⟩ := List.getElem?_eq_some_iff.1 hslot
    have hpos : 0 < v.openFiles.count (some h) := count_pos_iff.2 (mem_openFiles hfd)
    dsimp only
    split
    · next he =>
      obtain ⟨hne, hzero⟩ := recorded_of_releaseHandle_error he
      have hrec : v.recorded h = 0 := by
        cases h <;> exact hzero
      rw [hv h hne] at hrec
      omega
    next w hw =>
    intro h' hne
    have hrec : w.recorded h' = v.recorded h' - if h' = h then 1 else 0 := by
      rw [recorded_releaseHandle hw h' hne]
      cases h' <;> rfl
    rw [hrec, (sameFiles_releaseHandle hw).openFiles, count_set hlt, heq, hv h' hne]
    by_cases hh : h' = h
    · simp [hh]
    · simp [hh, Ne.symm hh]

theorem Counted.duplicateFd (hd : v.duplicateFd fd = .ok (dup, w)) : w.Counted := by
  obtain ⟨h, u, hu, heq⟩ := duplicateFd_eq_ok hd
  obtain rfl : w = (u.placeHandle h).2 := congrArg Prod.snd heq.symm
  intro h' hne
  rw [recorded_placeHandle, count_placeHandle, recorded_retainHandle hu h' hne,
    (sameFiles_retainHandle hu).openFiles, hv h' hne]

omit hv in
/-- What the pipes record at an index when a pipe with one of each end follows them. -/
theorem elim_pipes_append (pipes : List PipeState) (hp : f p = 1) : ((pipes ++ [p])[pipe]?).elim 0 f =
      (pipes[pipe]?).elim 0 f + if pipe = pipes.length then 1 else 0 := by
  rcases Nat.lt_trichotomy pipe pipes.length with hk | rfl | hk
  · simp [getElem?_append_left hk, Nat.ne_of_lt hk]
  · simp [hp]
  · simp [getElem?_append_right (Nat.le_of_lt hk), Nat.le_of_lt hk, Nat.ne_of_gt hk,
      Nat.sub_ne_zero_of_lt hk]

theorem Counted.createPipe (capacity : ℕ) : (v.createPipe capacity).2.Counted := by
  rcases createPipe_cases v capacity with heq | ⟨r, w, rfl, rfl, heq⟩
  · rw [heq]
    exact hv
  intro h hne
  rw [heq, recorded_placeHandle, recorded_placeHandle, count_placeHandle, count_placeHandle]
  change _ = v.openFiles.count (some h) + _ + _
  rw [← hv h hne]
  cases h with
  | other => exact absurd rfl hne
  | pipeRead k => simpa [recorded, addPipe] using elim_pipes_append v.pipes rfl
  | pipeWrite k => simpa [recorded, addPipe] using elim_pipes_append v.pipes rfl

theorem Counted.setBuffer (hp : v.pipes[pipe]? = some p) (buffer : List UInt8) :
    (v.setPipe pipe { p with buffer := buffer }).Counted := by
  intro h hne
  rw [recorded_setPipe hp]
  show _ = v.openFiles.count (some h)
  rw [← hv h hne]
  split
  · next hh => rw [hh, recorded, hp]; rfl
  split
  · next hh => rw [hh, recorded, hp]; rfl
  · rfl

theorem Counted.step (h : Step v w) : w.Counted := by
  cases h with
  | close fd => exact hv.close fd
  | duplicate hd => exact hv.duplicateFd hd
  | create capacity => exact hv.createPipe capacity
  | move hp buffer => exact hv.setBuffer hp buffer
  | memory fileRoom pipeRoom => exact fun h hne => (by cases h <;> rfl : _ = _).trans (hv h hne)

theorem Counted.steps (h : Steps v w) : w.Counted := by
  induction h with
  | refl => exact hv
  | tail _ h ih => exact ih.step h

end

/-- A read of a pipe takes bytes from the front of the buffer, or changes nothing. -/
theorem read_cases (v : Vfs) (fd len : ℕ) (other : Except VfsError (List UInt8)) :
    (v.read fd len other).2 = v ∧ (v.isPipe fd → ∃ e, (v.read fd len other).1 = .error e) ∨
      ∃ pipe p, v.handle fd = some (.pipeRead pipe) ∧ v.pipes[pipe]? = some p ∧
        v.read fd len other = (.ok (p.buffer.take len),
          v.setPipe pipe { p with buffer := p.buffer.drop len }) := by
  unfold read
  split
  · exact .inl ⟨rfl, fun _ => ⟨_, rfl⟩⟩
  · next pipe h =>
    split
    · exact .inl ⟨rfl, fun _ => ⟨_, rfl⟩⟩
    next p hp =>
    split
    · exact .inl ⟨rfl, fun _ => ⟨_, rfl⟩⟩
    next bytes q hread =>
    unfold PipeState.read at hread
    dsimp only at hread
    split at hread
    · cases hread
    · cases hread
      exact .inr ⟨pipe, p, h, hp, rfl⟩
  · exact .inl ⟨rfl, fun _ => ⟨_, rfl⟩⟩
  · next h => exact .inl ⟨rfl, fun hpipe => by simp [isPipe, h] at hpipe⟩

/-- A write to a pipe puts bytes at the end of the buffer, or changes nothing. -/
theorem write_cases (v : Vfs) (fd : ℕ) (input : List UInt8) (other : Except VfsError ℕ) :
    (v.write fd input other).2 = v ∧ (v.isPipe fd → ∃ e, (v.write fd input other).1 = .error e) ∨
      ∃ pipe p written buffer, v.handle fd = some (.pipeWrite pipe) ∧ v.pipes[pipe]? = some p ∧
        v.write fd input other = (.ok written, v.setPipe pipe { p with buffer := buffer }) ∧
        (written = 0 ∧ buffer = p.buffer ∨
          0 < written ∧ pushBytes p.capacity p.buffer input = (written, buffer)) := by
  unfold write
  split
  · exact .inl ⟨rfl, fun _ => ⟨_, rfl⟩⟩
  · next pipe h =>
    split
    · exact .inl ⟨rfl, fun _ => ⟨_, rfl⟩⟩
    next p hp =>
    split
    · exact .inl ⟨rfl, fun _ => ⟨_, rfl⟩⟩
    next written q hwrite =>
    unfold PipeState.write at hwrite
    dsimp only at hwrite
    repeat' split at hwrite
    all_goals cases hwrite
    · exact .inr ⟨pipe, p, 0, p.buffer, h, hp, rfl, .inl ⟨rfl, rfl⟩⟩
    · next hne => exact .inr ⟨pipe, p, _, _, h, hp, rfl, .inr ⟨Nat.pos_of_ne_zero hne, rfl⟩⟩
  · exact .inl ⟨rfl, fun _ => ⟨_, rfl⟩⟩
  · next h => exact .inl ⟨rfl, fun hpipe => by simp [isPipe, h] at hpipe⟩

theorem steps_read (v : Vfs) (fd len : ℕ) (other : Except VfsError (List UInt8)) :
    v.Steps (v.read fd len other).2 := by
  rcases read_cases v fd len other with ⟨heq, -⟩ | ⟨pipe, p, -, hp, heq⟩
  · rw [heq]
    exact .refl
  · rw [heq]
    exact .single (.move hp _)

theorem steps_write (v : Vfs) (fd : ℕ) (input : List UInt8) (other : Except VfsError ℕ) :
    v.Steps (v.write fd input other).2 := by
  rcases write_cases v fd input other with ⟨heq, -⟩ | ⟨pipe, p, written, buffer, -, hp, heq, -⟩
  · rw [heq]
    exact .refl
  · rw [heq]
    exact .single (.move hp _)

/-- The last writer or the last reader of a pipe is gone, or bytes were moved. -/
def Stirred (v w : Vfs) : Prop :=
  ∃ (pipe : ℕ) (p q : PipeState), v.pipes[pipe]? = some p ∧ w.pipes[pipe]? = some q ∧
    (0 < p.writers ∧ q.writers = 0 ∨ 0 < p.readers ∧ q.readers = 0 ∨ q.buffer ≠ p.buffer)

theorem not_stirred_self (v : Vfs) : ¬ Stirred v v := by
  rintro ⟨pipe, p, q, hp, hq, h⟩
  cases hp.symm.trans hq
  rcases h with h | h | h
  · omega
  · omega
  · exact h rfl

/-- Every end of a pipe that is open is also open in a slot outside the list. -/
def Spares (v : Vfs) (closed : List ℕ) : Prop :=
  ∀ i h, h ≠ .other → v.handle i = some h → ∃ j, j ∉ closed ∧ v.handle j = some h

theorem spares_nil (v : Vfs) : v.Spares [] := fun i _ _ hi => ⟨i, not_mem_nil, hi⟩

theorem Leaves.recorded_pos (h₁ : Leaves closed v w) (hs : v.Spares closed) (hv : v.Counted)
    (hw : w.Counted) (hne : h ≠ .other) (hpos : 0 < v.recorded h) : 0 < w.recorded h := by
  rw [hv h hne, count_pos_iff] at hpos
  obtain ⟨i, hi⟩ := exists_handle hpos
  obtain ⟨j, hj, hjh⟩ := hs i h hne hi
  rw [hw h hne, count_pos_iff]
  exact mem_openFiles (h₁.slots j h hj hjh)

/-- No last end disappears when each closed end is open elsewhere. -/
theorem Leaves.not_stirred (h₁ : Leaves closed v w) (hs : v.Spares closed) (hv : v.Counted)
    (hw : w.Counted) : ¬ Stirred v w := by
  rintro ⟨pipe, p, q, hp, hq, ⟨hpos, hzero⟩ | ⟨hpos, hzero⟩ | hne⟩
  · have := h₁.recorded_pos hs hv hw (h := .pipeWrite pipe) (by simp) (by simpa [recorded, hp])
    simp [recorded, hq, hzero] at this
  · have := h₁.recorded_pos hs hv hw (h := .pipeRead pipe) (by simp) (by simpa [recorded, hp])
    simp [recorded, hq, hzero] at this
  obtain ⟨rest, hrest⟩ := h₁.contents
  have hlt : pipe < (v.pipes.map content).length := by
    simpa using (List.getElem?_eq_some_iff.1 hp).1
  have hget := congrArg (·[pipe]?) hrest
  simp only [getElem?_append_left hlt, getElem?_map, hp, hq, map_some] at hget
  exact hne (congrArg Prod.fst (some.inj hget)).symm

end Vfs
end Ristux.Kernel
