import Ristux.Kernel.FileCalls

-- Whatever sequence of calls is made, the bytes that were read from a pipe, followed by those in
-- its buffer, are the bytes that were accepted by its writes, and the ends of the channel are
-- seen exactly when the last handle of the other end is closed.

namespace Ristux.Kernel
open List Option PipeState Vfs

namespace PipeState

theorem pushBytes_spec (capacity : ℕ) (input : List UInt8) :
    ∀ buffer : List UInt8, buffer.length ≤ capacity →
      ∃ n, pushBytes capacity buffer input = (n, buffer ++ input.take n) ∧
        buffer.length + n ≤ capacity := by
  induction input with
  | nil => exact fun buffer h => ⟨0, by simp [pushBytes], h⟩
  | cons byte input ih =>
    intro buffer h
    unfold pushBytes
    split
    · exact ⟨0, by simp, h⟩
    next hroom =>
    obtain ⟨n, heq, hle⟩ := ih (buffer ++ [byte]) (by simp; omega)
    refine ⟨n + 1, ?_, ?_⟩
    · rw [heq]
      simp
    · simpa [Nat.add_assoc, Nat.add_comm 1 n] using hle

end PipeState

/-- A call on the open files. What a handle other than a pipe answers is part of it. -/
inductive PipeCall where
  | createPipe (capacity : ℕ)
  | duplicateFd (fd : ℕ)
  | read (fd len : ℕ) (other : Except VfsError (List UInt8))
  | write (fd : ℕ) (input : List UInt8) (other : Except VfsError ℕ)
  | close (fd : ℕ)
  | memory (fileRoom pipeRoom : ℕ)

namespace PipeCall
variable {v w : Vfs} {pipe fd : ℕ}

/-- The open files after the call, whatever it returns. -/
def exec (v : Vfs) : PipeCall → Vfs
  | .createPipe capacity => (v.createPipe capacity).2
  | .duplicateFd fd =>
    match v.duplicateFd fd with
    | .ok (_, w) => w
    | .error _ => v
  | .read fd len other => (v.read fd len other).2
  | .write fd input other => (v.write fd input other).2
  | .close fd => (v.close fd).2
  | .memory fileRoom pipeRoom => { v with fileRoom, pipeRoom }

def run (v : Vfs) (calls : List PipeCall) : Vfs := calls.foldl exec v

/-- The bytes that the call returns from the pipe. -/
def taken (v : Vfs) (pipe : ℕ) : PipeCall → List UInt8
  | .read fd len other =>
    if v.handle fd = some (.pipeRead pipe) then
      match (v.read fd len other).1 with
      | .ok bytes => bytes
      | .error _ => []
    else []
  | _ => []

/-- The prefix of its input that a write into the pipe reports as written. -/
def accepted (v : Vfs) (pipe : ℕ) : PipeCall → List UInt8
  | .write fd input other =>
    if v.handle fd = some (.pipeWrite pipe) then
      match (v.write fd input other).1 with
      | .ok written => input.take written
      | .error _ => []
    else []
  | _ => []

/-- What a function of one call gives along a sequence of calls. -/
def along (f : Vfs → PipeCall → List UInt8) : Vfs → List PipeCall → List UInt8
  | _, [] => []
  | v, c :: calls => f v c ++ along f (c.exec v) calls

/-- The bytes taken from each pipe so far and those in its buffer are the bytes accepted. -/
structure Streams (taken accepted : ℕ → List UInt8) (v : Vfs) : Prop where
  stream : ∀ (k : ℕ) (p : PipeState), v.pipes[k]? = some p → taken k ++ p.buffer = accepted k
  bounded : ∀ (k : ℕ) (p : PipeState), v.pipes[k]? = some p → p.buffer.length ≤ p.capacity
  absent : ∀ k, v.pipes.length ≤ k → taken k = [] ∧ accepted k = []

theorem Streams.of_contents (h : Streams t a v)
    (hw : w.pipes.map content = v.pipes.map content) : Streams t a w := by
  have hback : ∀ (k : ℕ) (p : PipeState), w.pipes[k]? = some p →
      ∃ q, v.pipes[k]? = some q ∧ p.buffer = q.buffer ∧ p.capacity = q.capacity := by
    intro k p hp
    have hk := congrArg (·[k]?) hw
    simp only [getElem?_map, hp, map_some] at hk
    obtain ⟨q, hq, hcontent⟩ := map_eq_some_iff.1 hk.symm
    exact ⟨q, hq, (congrArg Prod.fst hcontent).symm, (congrArg Prod.snd hcontent).symm⟩
  have hlen : w.pipes.length = v.pipes.length := by simpa using congrArg length hw
  refine ⟨fun k p hp => ?_, fun k p hp => ?_, fun k hk => h.absent k (hlen ▸ hk)⟩
  · obtain ⟨q, hq, hbuf, -⟩ := hback k p hp
    rw [hbuf]
    exact h.stream k q hq
  obtain ⟨q, hq, hbuf, hcap⟩ := hback k p hp
  rw [hbuf, hcap]
  exact h.bounded k q hq

theorem Streams.createPipe (h : Streams t a v) (capacity : ℕ) :
    Streams t a (v.createPipe capacity).2 := by
  rcases createPipe_cases v capacity with heq | ⟨r, w, rfl, rfl, heq⟩
  · rw [heq]
    exact h
  have hpipes : (v.createPipe capacity).2.pipes = v.pipes ++ [new capacity] := by
    rw [heq, placeHandle_pipes, placeHandle_pipes]
    rfl
  have hcases : ∀ (k : ℕ) (p : PipeState), (v.createPipe capacity).2.pipes[k]? = some p →
      v.pipes[k]? = some p ∨ k = v.pipes.length ∧ p = new capacity := by
    intro k p hp
    rw [hpipes] at hp
    rcases Nat.lt_trichotomy k v.pipes.length with hk | rfl | hk
    · rw [getElem?_append_left hk] at hp
      exact .inl hp
    · rw [getElem?_concat_length] at hp
      exact .inr ⟨rfl, (some.inj hp).symm⟩
    · rw [getElem?_eq_none (by simp; omega)] at hp
      cases hp
  refine ⟨fun k p hp => ?_, fun k p hp => ?_, fun k hk => h.absent k ?_⟩
  · rcases hcases k p hp with hp | ⟨rfl, rfl⟩
    · exact h.stream k p hp
    obtain ⟨ht, ha⟩ := h.absent _ le_rfl
    rw [ht, ha]
    rfl
  · rcases hcases k p hp with hp | ⟨rfl, rfl⟩
    · exact h.bounded k p hp
    · exact Nat.zero_le _
  · rw [hpipes, length_append] at hk
    omega

/-- Bytes moved between the pipe and its callers. -/
theorem Streams.setBuffer {buffer : List UInt8} (h : Streams t a v)
    (got put : List UInt8) (hp : v.pipes[pipe]? = some p) (hmove : p.buffer ++ put = got ++ buffer)
    (hlen : buffer.length ≤ p.capacity) : Streams (fun k => t k ++ if k = pipe then got else [])
      (fun k => a k ++ if k = pipe then put else []) (v.setPipe pipe { p with buffer := buffer }) := by
  have hlt : pipe < v.pipes.length := (List.getElem?_eq_some_iff.1 hp).1
  have hcases : ∀ (k : ℕ) (q : PipeState),
      (v.setPipe pipe { p with buffer := buffer }).pipes[k]? = some q →
      k = pipe ∧ q = { p with buffer := buffer } ∨ k ≠ pipe ∧ v.pipes[k]? = some q := by
    intro k q hq
    by_cases hk : k = pipe
    · subst hk
      rw [setPipe, getElem?_set_self hlt] at hq
      exact .inl ⟨rfl, (some.inj hq).symm⟩
    · rw [setPipe, getElem?_set_ne (Ne.symm hk)] at hq
      exact .inr ⟨hk, hq⟩
  refine ⟨fun k q hq => ?_, fun k q hq => ?_, fun k hk => ?_⟩
  · rcases hcases k q hq with ⟨rfl, rfl⟩ | ⟨hk, hq⟩
    · simp only [↓reduceIte]
      rw [append_assoc, ← hmove, ← append_assoc, h.stream k p hp]
    · simp only [if_neg hk, append_nil]
      exact h.stream k q hq
  · rcases hcases k q hq with ⟨rfl, rfl⟩ | ⟨hk, hq⟩
    · exact hlen
    · exact h.bounded k q hq
  · have hk' : v.pipes.length ≤ k := by simpa [setPipe] using hk
    have hne : k ≠ pipe := by omega
    simpa only [if_neg hne, append_nil] using h.absent k hk'

theorem Streams.unmoved {c : PipeCall} (h : Streams t a w)
    (ht : ∀ k, c.taken v k = []) (ha : ∀ k, c.accepted v k = []) :
    Streams (fun k => t k ++ c.taken v k) (fun k => a k ++ c.accepted v k) w := by
  simpa only [ht, ha, append_nil] using h

theorem Streams.read (h : Streams t a v) (fd len : ℕ) (other : Except VfsError (List UInt8)) :
    Streams (fun k => t k ++ (PipeCall.read fd len other).taken v k)
      (fun k => a k ++ (PipeCall.read fd len other).accepted v k) (v.read fd len other).2 := by
  rcases read_cases v fd len other with ⟨heq, herr⟩ | ⟨pipe, p, hfd, hp, heq⟩
  · rw [heq]
    refine h.unmoved (fun k => ?_) fun _ => rfl
    simp only [taken]
    split
    · next hk =>
      obtain ⟨e, he⟩ := herr (by simp [isPipe, hk])
      rw [he]
    · rfl
  have htaken : ∀ k, (PipeCall.read fd len other).taken v k =
      if k = pipe then p.buffer.take len else [] := by
    intro k
    simp only [taken, hfd, heq]
    by_cases hk : k = pipe
    · simp [hk]
    · simp [hk, Ne.symm hk]
  simp only [htaken]
  rw [heq]
  have hlen : (p.buffer.drop len).length ≤ p.capacity :=
    (by simp : (p.buffer.drop len).length ≤ p.buffer.length).trans (h.bounded pipe p hp)
  have hmove := h.setBuffer (p.buffer.take len) [] hp (by simp) hlen
  simpa [accepted] using hmove

theorem Streams.write (h : Streams t a v) (fd : ℕ) (input : List UInt8) (other : Except VfsError ℕ) :
    Streams (fun k => t k ++ (PipeCall.write fd input other).taken v k)
      (fun k => a k ++ (PipeCall.write fd input other).accepted v k)
      (v.write fd input other).2 := by
  rcases write_cases v fd input other with
    ⟨heq, herr⟩ | ⟨pipe, p, n, buffer, hfd, hp, heq, hbuffer⟩
  · rw [heq]
    refine h.unmoved (fun _ => rfl) fun k => ?_
    simp only [accepted]
    split
    · next hk =>
      obtain ⟨e, he⟩ := herr (by simp [isPipe, hk])
      rw [he]
    · rfl
  have hacc : ∀ k, (PipeCall.write fd input other).accepted v k =
      if k = pipe then input.take n else [] := by
    intro k
    simp only [accepted, hfd, heq]
    by_cases hk : k = pipe
    · simp [hk]
    · simp [hk, Ne.symm hk]
  simp only [hacc]
  rw [heq]
  obtain ⟨rfl, hlen⟩ : buffer = p.buffer ++ input.take n ∧ buffer.length ≤ p.capacity := by
    rcases hbuffer with ⟨rfl, rfl⟩ | ⟨-, hpush⟩
    · exact ⟨by rw [take_zero, append_nil], h.bounded pipe p hp⟩
    obtain ⟨m, hspec, hm⟩ := pushBytes_spec p.capacity input p.buffer (h.bounded pipe p hp)
    obtain ⟨rfl, rfl⟩ := Prod.mk.inj (hspec.symm.trans hpush)
    refine ⟨rfl, ?_⟩
    rw [length_append]
    exact (Nat.add_le_add_left (length_take_le _ _) _).trans hm
  have hmove := h.setBuffer [] (input.take n) hp (by simp) hlen
  simpa [taken] using hmove

/-- Each call keeps the streams. -/
theorem Streams.exec (h : Streams t a v) (c : PipeCall) :
    Streams (fun k => t k ++ c.taken v k) (fun k => a k ++ c.accepted v k) (c.exec v) := by
  cases c with
  | createPipe capacity => exact (h.createPipe capacity).unmoved (fun _ => rfl) fun _ => rfl
  | duplicateFd fd =>
    refine Streams.unmoved ?_ (fun _ => rfl) fun _ => rfl
    simp only [PipeCall.exec]
    split
    · next w hd => exact h.of_contents (duplicateFd_contents hd)
    · exact h
  | read fd len other => exact h.read fd len other
  | write fd input other => exact h.write fd input other
  | close fd =>
    exact (h.of_contents (close_files v fd).2).unmoved (fun _ => rfl) fun _ => rfl
  | memory fileRoom pipeRoom =>
    exact (h.of_contents (w := { v with fileRoom, pipeRoom }) rfl).unmoved (fun _ => rfl) fun _ => rfl

theorem Streams.run (calls : List PipeCall) : ∀ {v : Vfs} {t a : ℕ → List UInt8},
    Streams t a v → Streams (fun k => t k ++ along (fun v c => c.taken v k) v calls)
      (fun k => a k ++ along (fun v c => c.accepted v k) v calls) (PipeCall.run v calls) := by
  induction calls with
  | nil =>
    intro v t a h
    show Streams _ _ v
    simpa only [along, append_nil] using h
  | cons c calls ih =>
    intro v t a h
    show Streams _ _ (PipeCall.run (c.exec v) calls)
    simpa only [along, append_assoc] using ih (h.exec c)

/-- Each call is an operation on the open files. -/
theorem steps_exec (v : Vfs) (c : PipeCall) : v.Steps (c.exec v) := by
  cases c with
  | createPipe capacity => exact .single (.create v capacity)
  | duplicateFd fd =>
    simp only [exec]
    split
    · next hd => exact .single (.duplicate hd)
    · exact .refl
  | read fd len other => exact v.steps_read fd len other
  | write fd input other => exact v.steps_write fd input other
  | close fd => exact .single (.close v fd)
  | memory fileRoom pipeRoom => exact .single (.memory v fileRoom pipeRoom)

theorem counted_run (calls : List PipeCall) (hv : v.Counted) : (PipeCall.run v calls).Counted := by
  induction calls generalizing v with
  | nil => exact hv
  | cons c calls ih => exact ih (hv.steps (steps_exec v c))

end PipeCall

namespace Vfs
variable {v : Vfs}

variable (hv : v.Counted)
include hv

theorem writers_eq_zero (hp : v.pipes[pipe]? = some p) :
    p.writers = 0 ↔ some (.pipeWrite pipe) ∉ v.openFiles := by
  have hcount := hv (.pipeWrite pipe) (by simp)
  simp only [recorded, hp, elim_some] at hcount
  rw [hcount, count_eq_zero]

theorem readers_eq_zero (hp : v.pipes[pipe]? = some p) :
    p.readers = 0 ↔ some (.pipeRead pipe) ∉ v.openFiles := by
  have hcount := hv (.pipeRead pipe) (by simp)
  simp only [recorded, hp, elim_some] at hcount
  rw [hcount, count_eq_zero]

/-- A read sees the end of the stream when the buffer is empty and nobody can write. -/
theorem read_eq_ok_nil (hfd : v.handle fd = some (.pipeRead pipe))
    (hp : v.pipes[pipe]? = some p) (hlen : len ≠ 0) (other : Except VfsError (List UInt8)) :
    (v.read fd len other).1 = .ok [] ↔ p.buffer = [] ∧ some (.pipeWrite pipe) ∉ v.openFiles := by
  have htake : p.buffer.take len = [] ↔ p.buffer = [] := by simp [take_eq_nil_iff, hlen]
  rw [← writers_eq_zero hv hp]
  simp only [read, hfd, hp, PipeState.read, htake]
  by_cases hempty : p.buffer = []
  · by_cases hw : p.writers = 0
    · simp [hempty, hw]
    · simp [hempty, hw, Nat.pos_of_ne_zero hw]
  · simp [hempty, htake]

/-- A write breaks when nobody can read. -/
theorem write_eq_brokenPipe (hfd : v.handle fd = some (.pipeWrite pipe))
    (hp : v.pipes[pipe]? = some p) (hinput : input ≠ []) (other : Except VfsError ℕ) :
    (v.write fd input other).1 = .error .brokenPipe ↔ some (.pipeRead pipe) ∉ v.openFiles := by
  rw [← readers_eq_zero hv hp]
  simp only [write, hfd, hp, PipeState.write, if_neg hinput]
  by_cases hr : p.readers = 0
  · simp [hr]
  by_cases hfull : (PipeState.pushBytes p.capacity p.buffer input).1 = 0
  · simp [hr, hfull]
  · simp [hr, hfull]

end Vfs

/-- Pipes are channels. Start from open files without pipes. After any sequence of calls, each
pipe counts its open handles, has passed on what it accepted up to its buffer, in order and
within its capacity, and shows the end of the stream to a reader and the broken end to a writer
exactly when the handles of the other end are gone. -/
theorem pipes_are_channels (v : Vfs) (hpipes : v.pipes = [])
    (hends : ∀ h, h ≠ .other → some h ∉ v.openFiles) (calls : List PipeCall) (pipe : ℕ)
    (p : PipeState) (hp : (PipeCall.run v calls).pipes[pipe]? = some p) :
    p.readers = (PipeCall.run v calls).openFiles.count (some (.pipeRead pipe)) ∧
    p.writers = (PipeCall.run v calls).openFiles.count (some (.pipeWrite pipe)) ∧
    PipeCall.along (fun v c => c.taken v pipe) v calls ++ p.buffer =
      PipeCall.along (fun v c => c.accepted v pipe) v calls ∧ p.buffer.length ≤ p.capacity ∧
    (∀ fd len other, (PipeCall.run v calls).handle fd = some (.pipeRead pipe) → len ≠ 0 →
      (((PipeCall.run v calls).read fd len other).1 = .ok [] ↔
        p.buffer = [] ∧ some (.pipeWrite pipe) ∉ (PipeCall.run v calls).openFiles)) ∧
    ∀ fd input other, (PipeCall.run v calls).handle fd = some (.pipeWrite pipe) → input ≠ [] →
      (((PipeCall.run v calls).write fd input other).1 = .error .brokenPipe ↔
        some (.pipeRead pipe) ∉ (PipeCall.run v calls).openFiles) := by
  have hcounted : v.Counted := fun h hne => by
    rw [count_eq_zero.2 (hends h hne)]
    cases h <;> simp [recorded, hpipes]
  have hrun := PipeCall.counted_run calls hcounted
  have hstreams : PipeCall.Streams (fun _ => []) (fun _ => []) v :=
    ⟨by simp [hpipes], by simp [hpipes], fun _ _ => ⟨rfl, rfl⟩⟩
  have hall := PipeCall.Streams.run calls hstreams
  refine ⟨?_, ?_, ?_, hall.bounded pipe p hp, ?_, ?_⟩
  · have := hrun (.pipeRead pipe) (by simp)
    simpa [recorded, hp] using this
  · have := hrun (.pipeWrite pipe) (by simp)
    simpa [recorded, hp] using this
  · simpa using hall.stream pipe p hp
  · exact fun fd len other hfd hlen => read_eq_ok_nil hrun hfd hp hlen other
  · exact fun fd input other hfd hinput => write_eq_brokenPipe hrun hfd hp hinput other

/-- Two writes into a pipe of three bytes, the second cut short, with a read between them, and
the end of the writer. There is no memory for a second pipe. -/
def twoWrites : List PipeCall :=
  [.createPipe 3, .createPipe 3, .write 2 [1, 2] (.ok 0), .read 1 1 (.ok []),
    .write 2 [3, 4, 5] (.ok 0), .close 2]

theorem pipes_are_channels_twoWrites :
    (PipeCall.run ⟨[some .other], [], 3, 1⟩ twoWrites).pipes[0]? = some ⟨[2, 3, 4], 3, 1, 0⟩ ∧
      PipeCall.along (fun v c => c.taken v 0) ⟨[some .other], [], 3, 1⟩ twoWrites ++ [2, 3, 4] =
        PipeCall.along (fun v c => c.accepted v 0) ⟨[some .other], [], 3, 1⟩ twoWrites := by
  have hp : (PipeCall.run ⟨[some .other], [], 3, 1⟩ twoWrites).pipes[0]? =
      some ⟨[2, 3, 4], 3, 1, 0⟩ := by decide
  have h := pipes_are_channels ⟨[some .other], [], 3, 1⟩ rfl
    (fun h hne => by cases h <;> simp_all) twoWrites 0 _ hp
  exact ⟨hp, h.2.2.1⟩

end Ristux.Kernel
