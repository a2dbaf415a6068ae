import Ristux.Kernel.FileCalls

-- When the last end of a pipe disappears or bytes are moved, the processes that wait for input or
-- output are woken by the calls that close a descriptor or transfer bytes, and by an exit.

namespace Ristux.Kernel
open Relation State Option Event Process PipeState

/-- The open files of a process, which its end closes. -/
def Process.files (p : Process) : List ℕ := p.sharedMappings ++ p.fds.map FdEntry.vfsFd

variable {signal : Signal} {e : Event} {s t u : State} {G : Pid → ExitReason → Prop}

namespace State

/-- The open files of the processes that are alive in `s` and no more in `t`. -/
def endedFiles (s t : State) : List ℕ :=
  (s.processes.entries.filter fun p => s.isLive p.pid && !t.isLive p.pid).flatMap files

theorem mem_endedFiles {fd : ℕ} : fd ∈ s.endedFiles t ↔ ∃ p, s.get p.pid = some p ∧
    s.isLive p.pid ∧ t.isLive p.pid = false ∧ fd ∈ p.files := by
  simp only [endedFiles, List.mem_flatMap, List.mem_filter, Bool.and_eq_true, Bool.not_eq_true']
  constructor
  · rintro ⟨p, ⟨hp, hlive, hend⟩, hfd⟩
    exact ⟨p, Lib.Keyed.get_of_mem hp, hlive, hend, hfd⟩
  · rintro ⟨p, hp, hlive, hend, hfd⟩
    exact ⟨p, ⟨Lib.Keyed.mem_of_get hp, hlive, hend⟩, hfd⟩

/-- Processes end, and only their open files are closed. -/
structure Ends (s t : State) : Prop where
  alive : ∀ m q, t.get m = some q → q.state.isZombie = false →
    ∃ p, s.get m = some p ∧ p.state.isZombie = false ∧ q.files = p.files
  vfs : Vfs.Leaves (s.endedFiles t) s.vfs t.vfs

theorem Ends.isLive (h : Ends s t) {m : Pid} (hm : t.isLive m) : s.isLive m := by
  obtain ⟨q, hq, hz⟩ := isLive_iff.1 hm
  obtain ⟨p, hp, hz', -⟩ := h.alive m q hq hz
  exact isLive_iff.2 ⟨p, hp, hz'⟩

theorem Ends.trans (h : Ends s t) (h' : Ends t u) : Ends s u := by
  refine ⟨fun m r hr hz => ?_, fun i handle hi hs => ?_, h.vfs.contents.trans h'.vfs.contents⟩
  · obtain ⟨q, hq, hz', hfiles'⟩ := h'.alive m r hr hz
    obtain ⟨p, hp, hz'', hfiles⟩ := h.alive m q hq hz'
    exact ⟨p, hp, hz'', hfiles'.trans hfiles⟩
  · refine h'.vfs.slots i handle (fun hmem => hi ?_) (h.vfs.slots i handle (fun hmem => hi ?_) hs)
    · -- who ends in the second part was alive before, with the same open files
      obtain ⟨q, hq, hlive, hend, hfd⟩ := mem_endedFiles.1 hmem
      obtain ⟨q', hq', hz⟩ := isLive_iff.1 hlive
      cases hq.symm.trans hq'
      obtain ⟨p, hp, hz', hfiles⟩ := h.alive _ q hq hz
      have hpid : p.pid = q.pid := pid_of_get hp
      rw [hfiles] at hfd
      exact mem_endedFiles.2 ⟨p, get_self hp, hpid ▸ isLive_iff.2 ⟨p, hp, hz'⟩, hpid ▸ hend, hfd⟩
    · obtain ⟨p, hp, hlive, hend, hfd⟩ := mem_endedFiles.1 hmem
      refine mem_endedFiles.2 ⟨p, hp, hlive, ?_, hfd⟩
      cases hu : u.isLive p.pid with
      | false => rfl
      | true => rw [h'.isLive hu] at hend; cases hend

end State

theorem Act.ends (h : Act G s t) (hs : s.Bare) : Ends s t := by
  constructor
  · intro m q hq hz
    obtain ⟨p, hp, hfiles⟩ := h.files hq
    obtain ⟨p', hp', hz'⟩ := isLive_iff.1 (shrinks_of_act h m (isLive_iff.2 ⟨q, hq, hz⟩))
    cases hp.symm.trans hp'
    refine ⟨p, hp, hz', ?_⟩
    rcases hfiles with ⟨hfds, hmaps, -⟩ | ⟨hz'', -⟩
    · rw [Process.files, hfds, hmaps, Process.files]
    · rw [hz''] at hz
      cases hz
  · rcases h.vfs with heq | ⟨p, hp, hend, -, heq⟩
    · rw [heq]
      exact .refl _ _
    · rw [heq]
      refine (Vfs.Leaves.refl _ _).closeAll fun fd hfd => .inl ?_
      cases hz : p.state.isZombie with
      | false => exact mem_endedFiles.2 ⟨p, hp, isLive_iff.2 ⟨p, hp, hz⟩, hend, hfd⟩
      | true =>
        obtain ⟨hfds, hmaps⟩ := hs _ p hp hz
        rw [hfds, hmaps] at hfd
        cases hfd

theorem Acts.ends (h : Acts G s t) (hs : s.Bare) : Ends s t := by
  suffices t.Bare ∧ Ends s t from this.2
  induction h with
  | refl => exact ⟨hs, fun _ q hq hz => ⟨q, hq, hz, rfl⟩, .refl _ _⟩
  | tail _ h ih => exact ⟨ih.1.act h, ih.2.trans (h.ends ih.1)⟩

/-- Something happens to a pipe only if nobody is left waiting. -/
def State.Answers (s t : State) : Prop := Vfs.Stirred s.vfs t.vfs → NoneLeft s t

/-- The event closes no last end of a pipe without waking anyone. -/
def Event.SparesEnds (s : State) (e : Event) : Prop :=
  match e with
  | .dup2 fd target | .dup3 fd target _ =>
    fd ≠ target → ∀ p old, s.currentProcess = some p → (p.lookupFd fd).isSome →
      p.lookupFd target = some old → s.vfs.Spares [old]
  | .execve _ => ∀ p, s.currentProcess = some p → s.vfs.Spares (closedOnExec p)
  | .kill _ _ | .sysKill _ _ | .signalPgrp _ _ | .sendPgrp _ _ =>
    s.vfs.Spares (s.endedFiles (e.exec s))
  | _ => True

namespace State
theorem answers_of_vfs (h : t.vfs = s.vfs) : Answers s t := by
  intro hst
  rw [h] at hst
  exact absurd hst (Vfs.not_stirred_self _)

theorem Filed.answers (hs : s.Filed) (ht : t.Filed)
    (h : Vfs.Leaves closed s.vfs t.vfs) (hspares : s.vfs.Spares closed) : Answers s t :=
  fun hst => absurd hst (h.not_stirred hspares hs.counted ht.counted)

end State

theorem Event.answers (hs : s.Filed) (he : e.SparesEnds s) : Answers s (e.exec s) := by
  have hfiled := hs.exec e
  have hlive := hs.currentLive
  have hquiet : Changes (fun _ _ => False) (fun _ _ => False) s (e.exec s) →
      Answers s (e.exec s) := fun h => answers_of_vfs (h.vfs_eq hs.bare)
  have hsend : s.vfs.Spares (s.endedFiles (e.exec s)) → e.IsSend → Answers s (e.exec s) := by
    intro hspares hsend
    have hacts : Acts (fun _ _ => True) s (e.exec s) :=
      send_rel (containsSends_acts _) hsend (fun _ _ => trivial) fun signal =>
        mayEnd_acts (fun _ _ _ => trivial) fun _ _ _ _ _ _ => trivial
    exact hs.answers hfiled (hacts.ends hs.bare).vfs hspares
  have hcur : (∀ pid, s.current = some pid → Answers s (e.exec s)) →
      (s.current = none → e.exec s = s) → Answers s (e.exec s) := fun h h' => by
    cases hc : s.current with
    | none => exact answers_of_vfs (congrArg State.vfs (h' hc))
    | some pid => exact h pid hc
  have hwith : ∀ f : Pid → State, s.current = none → s.withCurrent f = s :=
    fun f h => by rw [withCurrent, h]; rfl
  have hsome : ∀ (f : Pid → State) pid, s.current = some pid → s.withCurrent f = f pid :=
    fun f pid h => by rw [withCurrent, h]; rfl
  -- `dup2` and `dup3` close what the target held
  have hdup : ∀ {fd target : ℕ}, (fd ≠ target → ∀ p old, s.currentProcess = some p →
      (p.lookupFd fd).isSome → p.lookupFd target = some old → s.vfs.Spares [old]) →
      (e.exec s = s ∨ fd ≠ target ∧ ∃ p, s.currentProcess = some p ∧ (p.lookupFd fd).isSome ∧
        Vfs.Leaves (p.lookupFd target).toList s.vfs (e.exec s).vfs) → Answers s (e.exec s) := by
    rintro fd target hspares (h | ⟨hne, p, hp, hfd, hleaves⟩)
    · exact answers_of_vfs (congrArg State.vfs h)
    refine hs.answers hfiled hleaves ?_
    cases hold : p.lookupFd target with
    | none => exact Vfs.spares_nil _
    | some old => exact hspares hne p old hp hfd hold
  cases e with
  | fork root =>
    exact hs.answers hfiled (not_tame_vfs id).2 (Vfs.spares_nil _)
  | thread entry arg stackTop clearChildTid =>
    exact hs.answers hfiled (not_tame_vfs
      id).2 (Vfs.spares_nil _)
  | execve image =>
    refine hcur (fun pid hc => ?_) (hwith _)
    have heq : exec s (.execve image) = s.execForUser pid image := hsome _ pid hc
    cases hp : s.get pid with
    | none => exact answers_of_vfs (by rw [heq, execForUser, hp])
    | some p =>
      have hleaves : Vfs.Leaves (closedOnExec p) s.vfs (exec s (.execve image)).vfs := by
        rw [heq]
        exact leaves_execForUser hp image
      refine hs.answers hfiled hleaves (he p ?_)
      rw [currentProcess, hc, bind_some, hp]
  | exit status =>
    refine hcur (fun pid hc _ => ?_) (hwith _)
    have heq : exec s (.exit status) = s.processExit pid (.exited status) := hsome _ pid hc
    rw [heq]
    exact noneLeft_processExit (.refl _ s) pid _
  | exitGroup status =>
    refine hcur (fun pid hc _ => ?_) (hwith _)
    have heq : exec s (.exitGroup status) = s.processExitGroup pid status := hsome _ pid hc
    rw [heq]
    exact noneLeft_processExitGroup s pid status
  | fault status =>
    simp only [exec, killCurrent]
    split
    · exact answers_of_vfs rfl
    · exact fun _ => noneLeft_processExit (.refl _ s) _ _
  | setsid => exact answers_of_vfs (setsidCurrent_vfs s)
  | setpgid pid pgid => exact answers_of_vfs (setPgid_vfs s pid pgid)
  | kill pid sig => exact hsend he trivial
  | sysKill pid sig => exact hsend he trivial
  | signalPgrp pgrp signal => exact hsend he trivial
  | sendPgrp pgrp signal => exact hsend he trivial
  | deliver caught =>
    rcases deliverPendingSignal_cases hlive caught with h | ⟨pid, reason, -, heq⟩
    · exact hquiet h
    intro _
    rw [exec, heq]
    exact noneLeft_processExit (keepsStates_takePendingSignalCurrent s) pid reason
  | close fd =>
    rcases userClose_cases s fd with h | ⟨t, ht, h⟩
    · exact answers_of_vfs (congrArg State.vfs h)
    intro _
    rw [exec, h]
    exact noneLeft_wakeIoWaiters ht
  | memory fileRoom pipeRoom =>
    exact hs.answers hfiled ⟨fun _ _ _ hi => hi, List.prefix_refl _⟩ (Vfs.spares_nil _)
  | dup fd => exact hs.answers hfiled (leaves_userDup s fd) (Vfs.spares_nil _)
  | dup2 fd target => exact hdup he (userDup2_cases s fd target)
  | dup3 fd target flags => exact hdup he (linuxDup3_cases s fd target flags)
  | pipe2 pipefd flags =>
    rcases linuxPipe2_cases s pipefd flags with h | h
    · exact hs.answers hfiled h (Vfs.spares_nil _)
    · exact fun _ => h
  | read fd buf len other =>
    exact (linuxRead_cases s fd buf len other).elim answers_of_vfs fun h _ => h
  | write fd buf len other =>
    exact (linuxWrite_cases s fd buf len other).elim answers_of_vfs fun h _ => h
  | _ => exact hquiet (changes_quiet trivial hlive)

/-- Nobody is blocked without a deadline on input or output. -/
def State.NobodyWaits (s : State) : Prop :=
  ∀ m p, s.get m = some p → p.state ≠ .blocked .waitIo

/-- In every run, whenever the last writer or the last reader of a pipe disappears, or bytes are
put into it or taken out, no process that was blocked in `WaitIo` is left so by the event, unless
the event is a `dup2`, `dup3` or `execve` that closes a last end or a signal that ends the processes
that hold one. -/
theorem run_wakes_pipe_waiters (root : ℕ) (phys : Memory.PhysicalMemory) (events : List Event) (e : Event)
    (h : (run (boot root phys) events).NobodyWaits ∨ e.SparesEnds (run (boot root phys) events)) :
    Answers (run (boot root phys) events) (e.exec (run (boot root phys) events)) := by
  rcases h with h | h
  · intro _ m p q hp hst
    exact absurd hst (h m p hp)
  · exact answers ((State.filed_boot root phys).run events) h

/-- An image with one page, which is writable. -/
def writableImage : State.ExecImage where
  owner := 0
  group := 0
  mode := 0
  p4Phys := 0
  protection := fun page => if page = 0x40000 then some .readWrite else none
  pages := [0x40000]
  memory := fun _ => 0

/-- Init reads from a pipe, with close-on-exec ends, whose only write end its first child holds.
The second child holds neither end, and the first child runs. -/
def readerBlocked : List Event :=
  [.enter 1, .execve writableImage, .pipe2 0x40000000 oCloexec, .fork 0, .fork 0, .close 4,
    .enter 3, .close 3, .close 4, .enter 1, .read 3 0x40000040 1 (.error .badFd), .enter 2]

/-- The pipe has one writer, then none, and the process waits all the same. -/
structure LosesReader (m : Pid) (s t : State) : Prop where
  before : (s.vfs.pipes[0]?).map writers = some 1
  after : (t.vfs.pipes[0]?).map writers = some 0
  waits : (s.get m).map state = some (.blocked .waitIo)
  waitsStill : (t.get m).map state = some (.blocked .waitIo)

theorem stirred_of_writers (hv : (v.pipes[0]?).map writers = some 1)
    (hw : (w.pipes[0]?).map writers = some 0) : Vfs.Stirred v w := by
  obtain ⟨p, hp, hpw⟩ := map_eq_some_iff.1 hv
  obtain ⟨q, hq, hqw⟩ := map_eq_some_iff.1 hw
  exact ⟨0, p, q, hp, hq, .inl ⟨by omega, hqw⟩⟩

theorem LosesReader.not_answers (h : LosesReader m s t) : ¬Answers s t := by
  intro hanswers
  obtain ⟨p, hp, hst⟩ := map_eq_some_iff.1 h.waits
  obtain ⟨q, hq, hst'⟩ := map_eq_some_iff.1 h.waitsStill
  have hsettled := hanswers (stirred_of_writers h.before h.after) m p q hp hst hq
  rw [hst'] at hsettled
  rcases hsettled with hready | hzombie
  · cases hready
  · cases hzombie

/-- The last write end goes with `dup2`, with close-on-exec, and with a kill from the second
child, and the reader sleeps on. -/
theorem pipe_wakeup_lost : (∃ s, s = run booted readerBlocked ∧
      LosesReader 1 s ((dup2 0 4).exec s) ∧ ¬Answers s ((dup2 0 4).exec s) ∧
      LosesReader 1 s ((execve writableImage).exec s) ∧
      ¬Answers s ((execve writableImage).exec s)) ∧
    ∃ s, s = run booted (readerBlocked ++ [.enter 3]) ∧
      LosesReader 1 s ((kill 2 9).exec s) ∧ ¬Answers s ((kill 2 9).exec s) := by
  have hdup : LosesReader 1 (run booted readerBlocked)
      ((dup2 0 4).exec (run booted readerBlocked)) := by
    constructor <;> decide +kernel
  have hexec : LosesReader 1 (run booted readerBlocked)
      ((execve writableImage).exec (run booted readerBlocked)) := by
    constructor <;> decide +kernel
  have hkill : LosesReader 1 (run booted (readerBlocked ++ [.enter 3]))
      ((kill 2 9).exec (run booted (readerBlocked ++ [.enter 3]))) := by
    constructor <;> decide +kernel
  exact ⟨⟨_, rfl, hdup, hdup.not_answers, hexec, hexec.not_answers⟩,
    _, rfl, hkill, hkill.not_answers⟩

/-- A `close` of the same end wakes the reader. -/
theorem run_wakes_pipe_waiters_close : Vfs.Stirred (run booted readerBlocked).vfs
        ((close 4).exec (run booted readerBlocked)).vfs ∧ NoneLeft (run booted readerBlocked)
        ((close 4).exec (run booted readerBlocked)) := by
  have hstirred : Vfs.Stirred (run booted readerBlocked).vfs
      ((close 4).exec (run booted readerBlocked)).vfs :=
    stirred_of_writers (by decide +kernel) (by decide +kernel)
  exact ⟨hstirred, run_wakes_pipe_waiters 0 _ readerBlocked (.close 4) (.inr trivial) hstirred⟩

end Ristux.Kernel
