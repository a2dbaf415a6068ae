import Ristux.Kernel.Zombie

-- `wake_io_waiters` makes every such process ready, and nothing that an exit or a wake does after
-- it, or before it, loses one. The open files are counted right in every state the kernel
-- reaches, and a zombie holds none.

namespace Ristux.Kernel
open Relation State List Option

variable (state : ProcessState)

namespace State
variable {s t u : State} {m pid : Pid} {p q : Process}

/-- Every process of `t` was there in `s`, and a state that satisfies `P` still does. -/
def KeepsStates (P : ProcessState → Prop) (s t : State) : Prop :=
  ∀ m q, t.get m = some q → ∃ p, s.get m = some p ∧ (P p.state → P q.state)

/-- The states that an exit or a wake may lead to. -/
structure Lasting (P : ProcessState → Prop) : Prop where
  ready : P .ready
  zombie : ∀ reason, P (.zombie reason)

section
theorem KeepsStates.refl (P : ProcessState → Prop) (s : State) : KeepsStates P s s :=
  fun _ q hq => ⟨q, hq, id⟩

theorem KeepsStates.trans (h : KeepsStates P s t) (h' : KeepsStates P t u) : KeepsStates P s u := by
  intro m q hq
  obtain ⟨r, hr, hrq⟩ := h' m q hq
  obtain ⟨p, hp, hpr⟩ := h m r hr
  exact ⟨p, hp, hrq ∘ hpr⟩

theorem KeepsStates.of_processes (h : t.processes = s.processes) : KeepsStates P s t := by
  intro m q hq
  refine ⟨q, ?_, id⟩
  rw [get, ← h]
  exact hq

theorem keepsStates_put (hp : s.get q.pid = some p) (h : P p.state → P q.state) :
    KeepsStates P s (s.put q) :=
  fun _ _ hr => back_put (R := fun p q => P p.state → P q.state) hr (fun _ => id) hp h

theorem containsSends_keepsStates (hP : Lasting P) :
    ContainsSends (fun signal => signal.hasStopDefault = false) (KeepsStates P) where
  refl := .refl P
  trans h h' := h.trans h'
  wake h _ := keepsStates_put h fun _ => hP.ready
  sigchld h _ := keepsStates_put h id
  adopt h _ _ := keepsStates_put h id
  forget h := keepsStates_put h id
  receive {_ p signal} h _ current := by
    refine keepsStates_put (by simpa using h) fun hst => ?_
    obtain ⟨-, -, -, -, hsame | ⟨-, hready⟩⟩ := p.received_eq signal.defaultStatus current
    · rwa [hsame]
    · rw [hready]
      exact hP.ready
  stop _ _ hS hstop := by rw [hS] at hstop; cases hstop
  resume h _ := keepsStates_put h fun _ => hP.ready
  leave _ hS hstop := by rw [hS] at hstop; cases hstop
  queue _ _ := .of_processes rfl
  ready h _ := keepsStates_put h fun _ => hP.ready
  woken {_ p _} h _ := keepsStates_put h fun hst => by
    by_cases hb : p.state.isIoBlocked
    · rw [if_pos hb]
      exact hP.ready
    · rwa [if_neg hb]

theorem keepsStates_reap (s : State) (c : Pid) : KeepsStates P s (s.reap c) := by
  intro m q hq
  rw [get_reap] at hq
  split at hq
  · cases hq
  · exact ⟨q, hq, id⟩

theorem keepsStates_exitWithReason (hP : Lasting P) (s : State) (pid : Pid)
    (reason : ExitReason) : KeepsStates P s (s.exitWithReason pid reason).1 := by
  refine exitFuel_rel (containsSends_keepsStates hP).toContainsSignals rfl rfl
    (fun _ _ _ q hq => ⟨q, hq, id⟩) (fun s p reason hp m q hq => ?_) (fun s c _ => keepsStates_reap s c) _ s pid reason
  rw [get_zombify hp] at hq
  split at hq
  · next hm =>
    cases hq
    exact ⟨p, by rw [hm]; exact hp, fun _ => hP.zombie reason⟩
  · exact ⟨q, hq, id⟩

theorem keepsStates_exitGroup (hP : Lasting P) (s : State) (pid : Pid) (status : ℤ) :
    KeepsStates P s (s.exitGroup pid status).1 :=
  exitGroup_rel (containsSends_keepsStates hP).toContainsWakes (fun _ _ _ q hq => ⟨q, hq, id⟩)
    (fun t m _ _ => keepsStates_exitWithReason hP t m _) (fun t c _ => keepsStates_reap t c) pid

end

theorem lasting_not_isIoBlocked : Lasting fun state => state.isIoBlocked = false :=
  ⟨rfl, fun _ => rfl⟩

theorem not_isIoBlocked_wakeIoWaiter (s : State) (pid : Pid)
    (hq : (wakeIoWaiter none s pid).get pid = some q) : q.state.isIoBlocked = false := by
  unfold wakeIoWaiter at hq
  split at hq
  · next hn => rw [hn] at hq; cases hq
  next p hp =>
  split at hq
  · obtain ⟨r, hr, hst⟩ := wakeBlocked_rel
      (containsSends_keepsStates lasting_not_isIoBlocked) _ pid pid q hq
    have hget : (s.put { p with state := .ready }).get pid =
        some { p with state := .ready } := by
      rw [get_put, if_pos (pid_of_get hp).symm, hp]
      rfl
    rw [hget] at hr
    cases hr
    exact hst rfl
  next hd =>
  obtain rfl := some.inj (hp.symm.trans hq)
  cases hst : p.state with
  | blocked reason => cases reason <;> simp_all [ioWaiterIsDue, ProcessState.isIoBlocked]
  | _ => rfl

/-- After `wake_io_waiters` nobody waits for input or output. -/
theorem not_isIoBlocked_wakeIoWaiters (s : State) (hq : s.wakeIoWaiters.get m = some q) :
    q.state.isIoBlocked = false := by
  have hR := containsSends_keepsStates lasting_not_isIoBlocked
  -- once its turn is over a process is not blocked, and the later turns do not block it
  have hloop : ∀ (l : List Pid) (s : State), ∀ j ∈ l, ∀ q,
      (l.foldl (wakeIoWaiter none) s).get j = some q → q.state.isIoBlocked = false := by
    intro l
    induction l with
    | nil => exact fun _ _ h => absurd h not_mem_nil
    | cons i l ih =>
      intro s j hj q hq
      by_cases hjl : j ∈ l
      · exact ih _ j hjl q hq
      obtain rfl : j = i := (mem_cons.1 hj).resolve_right hjl
      obtain ⟨r, hr, hst⟩ := hR.foldl_state
        (fun t k _ => wakeIoWaiter_rel hR none t k) (wakeIoWaiter none s j) j q hq
      exact hst (not_isIoBlocked_wakeIoWaiter s j hr)
  obtain ⟨p, hp, -⟩ := wakeIoWaiters_rel hR s m q hq
  exact hloop s.pids s m (mem_pids.2 ⟨p, hp⟩) q hq

/-- A process that waits without a deadline, or no longer waits. -/
def Waits : Prop :=
  state = .blocked .waitIo ∨ state = .ready ∨ state.isZombie

/-- A process that may run, or has ended. -/
def Settled : Prop := state = .ready ∨ state.isZombie

theorem lasting_waits : Lasting Waits := ⟨.inr (.inl rfl), fun _ => .inr (.inr rfl)⟩

theorem lasting_settled : Lasting Settled := ⟨.inl rfl, fun _ => .inr rfl⟩

/-- No process that waits for input or output in `s` is left waiting in `t`: it is ready, or
ended. -/
def NoneLeft (s t : State) : Prop :=
  ∀ m p q, s.get m = some p → p.state = .blocked .waitIo → t.get m = some q → Settled q.state

section
variable (h : KeepsStates Waits s t)
include h

theorem noneLeft_wakeIoWaiters : NoneLeft s t.wakeIoWaiters := by
  intro m p q hp hst hq
  have hkeep := h.trans (wakeIoWaiters_rel (containsSends_keepsStates lasting_waits) t)
  obtain ⟨p', hp', hpq⟩ := hkeep m q hq
  cases hp.symm.trans hp'
  rcases hpq (.inl hst) with hblocked | hsettled
  · have := not_isIoBlocked_wakeIoWaiters t hq
    rw [hblocked] at this
    cases this
  · exact hsettled

omit h in
theorem NoneLeft.trans (h : NoneLeft s t) (h' : KeepsStates Settled t u) : NoneLeft s u := by
  intro m p q hp hst hq
  obtain ⟨r, hr, hrq⟩ := h' m q hq
  exact hrq (h m p r hp hst hr)

theorem noneLeft_wakeIoWaiters_wakeProcesses (wake : WakeList) :
    NoneLeft s (t.wakeIoWaiters.wakeProcesses wake) :=
  (noneLeft_wakeIoWaiters h).trans
    (wakeProcesses_rel (containsSends_keepsStates lasting_settled) _ wake)

theorem noneLeft_processExit (pid : Pid) (reason : ExitReason) :
    NoneLeft s (t.processExit pid reason) :=
  noneLeft_wakeIoWaiters_wakeProcesses
    (h.trans (keepsStates_exitWithReason lasting_waits t pid reason)) _

end

theorem noneLeft_processExitGroup (s : State) (pid : Pid) (status : ℤ) :
    NoneLeft s (s.processExitGroup pid status) :=
  noneLeft_wakeIoWaiters_wakeProcesses (keepsStates_exitGroup lasting_waits s pid status) _

end State

section
variable {s t : State} {m : Pid} {p q : Process}

theorem State.zombify_vfs (s : State) (p : Process) (reason : ExitReason) :
    (s.zombify p reason).1.vfs = s.vfs.closeAll (p.sharedMappings ++ p.fds.map FdEntry.vfsFd) := by
  obtain ⟨spaces, phys, h⟩ := s.zombify_eq p reason
  rw [h]

theorem State.setCurrent_vfs (s : State) (pid : Pid) : (s.setCurrent pid).vfs = s.vfs := by
  obtain ⟨processes, heq⟩ := setCurrent_eq s pid
  rw [heq]

/-- The open files change when a process ends, and when a zombie is reaped that holds some. -/
theorem Act.vfs (h : Act G s t) :
    t.vfs = s.vfs ∨ ∃ p, s.get p.pid = some p ∧ t.isLive p.pid = false ∧
      (p.state.isZombie ∨ ∃ r, G p.pid r) ∧
      t.vfs = s.vfs.closeAll (p.sharedMappings ++ p.fds.map FdEntry.vfsFd) := by
  cases h with
  | @reap p h hz =>
    refine .inr ⟨p, h, ?_, .inl hz, ?_⟩
    · rw [isLive, get_reap, if_pos rfl]
      rfl
    · obtain ⟨spaces, phys, heq⟩ := reap_eq h
      rw [heq]
  | @zombify p reason h hg =>
    refine .inr ⟨p, h, ?_, .inr ⟨reason, hg⟩, zombify_vfs s p reason⟩
    rw [isLive, get_zombify h, if_pos rfl]
    rfl
  | _ => exact .inl rfl

theorem Changes.vfsSteps (h : Changes Vfs.Steps G s t) : s.vfs.Steps t.vfs := by
  induction h with
  | refl => exact .refl
  | tail _ h ih =>
    refine ih.trans ?_
    cases h with
    | act h =>
      rcases h.vfs with heq | ⟨p, -, -, -, heq⟩
      · rw [heq]
      · rw [heq]
        exact Vfs.steps_closeAll _ _
    | files h => exact h
    | focus h => rw [setCurrent_vfs]
    | _ => exact .refl

/-- A zombie holds no open files. -/
def State.Bare (s : State) : Prop :=
  ∀ m p, s.get m = some p → p.state.isZombie → p.fds = [] ∧ p.sharedMappings = []

theorem State.Bare.put (hs : s.Bare) (hp : s.get q.pid = some p) (hq : q.state.isZombie →
      p.state.isZombie ∧ q.fds = p.fds ∧ q.sharedMappings = p.sharedMappings) : (s.put q).Bare := by
  intro m r hr hz
  rw [get_put] at hr
  split at hr
  · next hm =>
    rw [hm, hp] at hr
    cases hr
    obtain ⟨hpz, hfds, hmaps⟩ := hq hz
    rw [hfds, hmaps]
    exact hs _ p hp hpz
  · exact hs m r hr hz

/-- A process keeps its open files, unless it ends. -/
def Process.KeepsFiles (p q : Process) : Prop :=
  q.fds = p.fds ∧ q.sharedMappings = p.sharedMappings ∧ (q.state.isZombie → p.state.isZombie) ∨
    q.state.isZombie ∧ q.fds = [] ∧ q.sharedMappings = []

theorem Process.KeepsFiles.refl (p : Process) : p.KeepsFiles p := .inl ⟨rfl, rfl, id⟩

theorem Act.files (h : Act G s t) (hq : t.get m = some q) :
    ∃ p, s.get m = some p ∧ p.KeepsFiles q := by
  have hput : ∀ {p r : Process}, (s.put r).get m = some q → s.get r.pid = some p →
      r.fds = p.fds → r.sharedMappings = p.sharedMappings →
      (r.state.isZombie → p.state.isZombie) → ∃ p, s.get m = some p ∧ p.KeepsFiles q := by
    intro p r hget hp hfds hmaps hz
    exact back_put hget .refl hp (.inl ⟨hfds, hmaps, hz⟩)
  cases h with
  | wake h hb => exact hput hq h rfl rfl (by simp [ProcessState.isZombie])
  | sigchld h hi => exact hput hq h rfl rfl id
  | adopt h hold hparent => exact hput hq h rfl rfl id
  | forget h => exact hput hq h rfl rfl id
  | @receive p h signal current =>
    generalize signal.defaultStatus = status at hq
    obtain ⟨bits, last, interrupted, heq, hst⟩ := p.received_eq status current
    refine hput hq (by simpa using h) (by rw [heq]) (by rw [heq]) fun hz => ?_
    rcases hst with hsame | ⟨-, hready⟩
    · rwa [hsame] at hz
    · rw [hready] at hz
      cases hz
  | stop h hz => exact hput hq h rfl rfl (by simp [ProcessState.isZombie])
  | resume h hst => exact hput hq h rfl rfl (by simp [ProcessState.isZombie])
  | leave => exact ⟨q, hq, .refl q⟩
  | queue runQueue => exact ⟨q, hq, .refl q⟩
  | held held => exact ⟨q, hq, .refl q⟩
  | ready h hb => exact hput hq h rfl rfl (by simp [ProcessState.isZombie])
  | @woken p wait h hw =>
    refine hput hq h rfl rfl fun hz => ?_
    by_cases hb : p.state.isIoBlocked
    · simp [hb, ProcessState.isZombie] at hz
    · simpa [hb] using hz
  | reap h hz =>
    rw [get_reap] at hq
    split at hq
    · cases hq
    · exact ⟨q, hq, .refl q⟩
  | @zombify p reason h hg =>
    rw [get_zombify h] at hq
    split at hq
    · next hm =>
      cases hq
      exact ⟨p, hm ▸ h, .inr ⟨rfl, rfl, rfl⟩⟩
    · exact ⟨q, hq, .refl q⟩

theorem State.Bare.act (hs : s.Bare) (h : Act G s t) : t.Bare := by
  intro m q hq hz
  obtain ⟨p, hp, ⟨hfds, hmaps, hzp⟩ | ⟨-, hnone⟩⟩ := h.files hq
  · rw [hfds, hmaps]
    exact hs m p hp (hzp hz)
  · exact hnone

theorem State.Bare.change (hs : s.Bare) (h : Change V G s t) : t.Bare := by
  cases h with
  | act h => exact hs.act h
  | memory spaces nextSpace phys => exact hs
  | files h => exact hs
  | @touch p q h hq =>
    refine hs.put (by rw [hq.pid]; exact h) fun hz => ?_
    rw [hq.after] at hz
    cases hz
  | reported h => exact hs.put h fun hz => ⟨hz, rfl, rfl⟩
  | @focus pid h =>
    intro m q hq hz
    rw [get_setCurrent] at hq
    obtain ⟨p, hp, rfl⟩ := map_eq_some_iff.1 hq
    refine hs m p hp ?_
    by_contra hlive
    refine absurd hz ?_
    dsimp only [runningState]
    split
    · simp [ProcessState.isZombie]
    split
    · simp [ProcessState.isZombie]
    · exact hlive

theorem State.Bare.changes (hs : s.Bare) (h : Changes V G s t) : t.Bare := by
  induction h with
  | refl => exact hs
  | tail _ h ih => exact ih.change h

/-- Changes that end nobody and touch no open file. -/
theorem Changes.vfs_eq (h : Changes (fun _ _ => False) (fun _ _ => False) s t) (hs : s.Bare) :
    t.vfs = s.vfs := by
  induction h with
  | refl => rfl
  | @tail b c hab h ih =>
    have hb := hs.changes hab
    refine Eq.trans ?_ ih
    cases h with
    | act h =>
      rcases h.vfs with heq | ⟨p, hp, -, hz | ⟨_, hf⟩, heq⟩
      · exact heq
      · obtain ⟨hfds, hmaps⟩ := hb p.pid p hp hz
        rw [heq, hfds, hmaps]
        rfl
      · exact hf.elim
    | files h => exact h.elim
    | focus h => exact setCurrent_vfs _ _
    | _ => rfl

end
end Ristux.Kernel
