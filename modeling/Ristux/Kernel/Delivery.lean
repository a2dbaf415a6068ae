import Ristux.Kernel.Jobs
import Ristux.Lib.Since

-- The signals of one process under any sequence of the steps the kernel makes on it. A signal is
-- pending exactly when it was queued and neither taken nor discarded since.

namespace Ristux.Kernel
open Function Option Signal

/-- A step on one process. `become` is any step that leaves its signals alone, such as a stop or
a continue. -/
inductive SignalStep where
  | generate (signal : Signal) (current : Option Pid)
  | sigchld
  | setMask (mask : BitVec 64)
  | setAction (signal handler : ℕ) (mask : BitVec 64) (flags : ℕ)
  | exec
  | take
  | become (q : Process)

namespace Process

variable (p : Process)

theorem setSignalAction_eq (signal handler : ℕ) (mask : BitVec 64) (flags : ℕ) :
    ∃ bits last handlers masks signalFlags, p.setSignalAction signal handler mask flags = { p with
        pendingSignals := bits
        pendingSignalStatus := last
        signalHandlers := handlers
        signalActionMasks := masks
        signalFlags := signalFlags } := by
  unfold setSignalAction
  repeat' split
  all_goals exact ⟨_, _, _, _, _, rfl⟩

theorem takePendingSignal_eq : ∃ bits last, p.takePendingSignal.2 =
    { p with pendingSignals := bits, pendingSignalStatus := last } := by
  unfold takePendingSignal
  repeat' split
  all_goals exact ⟨_, _, rfl⟩

def signalStep : SignalStep → Process
  | .generate signal current => p.received signal.defaultStatus current
  | .sigchld => p.queueSignal child.defaultStatus
  | .setMask mask => { p with signalMask := sanitizedSignalMask mask }
  | .setAction signal handler mask flags => p.setSignalAction signal handler mask flags
  | .exec => State.resetCaughtSignalHandlersForExec p
  | .take => p.takePendingSignal.2
  | .become q => { q with
      pid := p.pid
      pendingSignals := p.pendingSignals
      pendingSignalStatus := p.pendingSignalStatus
      signalMask := p.signalMask
      signalHandlers := p.signalHandlers }

def signalRun (steps : List SignalStep) : Process := steps.foldl signalStep p

end Process

/-- The step queues the signal `n`. -/
def SignalStep.Queues (n : ℕ) (p : Process) : SignalStep → Prop
  | .generate signal current => signal.number = n ∧ p.isIgnoredSignal signal.defaultStatus = false ∧
      p.shouldQueueSignal signal.defaultStatus current = true
  | .sigchld => n = child.number
  | _ => False

/-- SIGCONT discards the stop signals, and each of them discards SIGCONT. -/
def Signal.Discards (signal : Signal) (n : ℕ) : Prop :=
  signal = .cont ∧ (∃ other : Signal, other.hasStopDefault ∧ n = other.number) ∨
    signal.hasStopDefault ∧ n = cont.number

/-- The step takes or discards the signal `n`. -/
def SignalStep.Removes (n : ℕ) (p : Process) : SignalStep → Prop
  | .generate signal _ => signal.Discards n
  | .setAction signal handler _ _ => signal < 32 ∧ handler = ignoreHandler ∧ n = signal
  | .take => p.takePendingSignal.1 = some (128 + (n : ℤ))
  | _ => False

/-- The signal `n` was queued and neither taken nor discarded since. -/
def Process.QueuedSince (p : Process) (steps : List SignalStep) (n : ℕ) : Prop :=
  Lib.RaisedSince Process.signalStep (fun p e => e.Queues n p) (fun p e => e.Removes n p) p steps

namespace Process
variable {p : Process} {n k : ℕ}

theorem getLsbD_clearPendingSignal (p : Process) (k n : ℕ) :
    (p.clearPendingSignal k).pendingSignals.getLsbD n =
      (p.pendingSignals.getLsbD n && decide (n ≠ k)) := by
  unfold clearPendingSignal
  split
  · exact getLsbD_and_not_signalBit _ k n
  next hk =>
  by_cases hn : n = k
  · rw [hn, BitVec.getLsbD_of_ge _ _ (by omega)]
    rfl
  · simp [hn]

theorem getLsbD_queueSignal (p : Process) (signal : Signal) (n : ℕ) :
    (p.queueSignal signal.defaultStatus).pendingSignals.getLsbD n =
      (p.pendingSignals.getLsbD n || decide (n = signal.number)) := by
  have hlt := signal.number_lt
  have hst : signal.defaultStatus - 128 = signal.number := by
    rw [defaultStatus]
    omega
  have hcond : 128 ≤ signal.defaultStatus ∧ signal.defaultStatus - 128 < 64 := by
    omega
  have hbits : (p.queueSignal signal.defaultStatus).pendingSignals =
      p.pendingSignals ||| signalBit signal.number := by
    unfold queueSignal
    rw [if_pos hcond, hst, Int.toNat_natCast]
  rw [hbits, getLsbD_or_signalBit _ n (by omega)]

theorem getLsbD_discardPendingSignalInteractions (p : Process) (signal : Signal) (n : ℕ) :
    (p.discardPendingSignalInteractions signal.defaultStatus).pendingSignals.getLsbD n = true ↔
      p.pendingSignals.getLsbD n = true ∧ ¬signal.Discards n := by
  have hstop : (∃ other : Signal, other.hasStopDefault ∧ n = other.number) ↔
      n = 19 ∨ n = 20 ∨ n = 21 ∨ n = 22 := by
    constructor
    · rintro ⟨other, hs, rfl⟩
      cases other <;> simp_all [hasStopDefault, number]
    · rintro (rfl | rfl | rfl | rfl)
      exacts [⟨.stop, rfl, rfl⟩, ⟨.tstp, rfl, rfl⟩, ⟨.ttin, rfl, rfl⟩, ⟨.ttou, rfl, rfl⟩]
  unfold discardPendingSignalInteractions
  rw [signalFromLegacyStatus_defaultStatus, bind_some, fromNumber_number, Discards, hstop]
  dsimp only
  split
  · next hc =>
    subst hc
    simp only [getLsbD_clearPendingSignal, number, hasStopDefault]
    simp
    tauto
  · next hc =>
    split
    · next hs => simp [getLsbD_clearPendingSignal, hc, hs]
    · next hs => simp [hc, hs]

theorem isIgnoredSignal_discard (p : Process) (status status' : ℤ) :
    (p.discardPendingSignalInteractions status).isIgnoredSignal status' =
      p.isIgnoredSignal status' := by
  obtain ⟨bits, last, h⟩ := p.discardPendingSignalInteractions_eq status
  rw [h]
  rfl

theorem shouldQueueSignal_discard (p : Process) (status status' : ℤ) (current : Option Pid) :
    (p.discardPendingSignalInteractions status).shouldQueueSignal status' current =
      p.shouldQueueSignal status' current := by
  obtain ⟨bits, last, h⟩ := p.discardPendingSignalInteractions_eq status
  rw [h]
  rfl

/-- What a signal leaves of the two records of pending signals. -/
theorem received_signals (p : Process) (status : ℤ) (current : Option Pid) :
    ∃ q : Process, q.pendingSignals = (p.received status current).pendingSignals ∧
      q.pendingSignalStatus = (p.received status current).pendingSignalStatus ∧
      q = if p.isIgnoredSignal status = false ∧ p.shouldQueueSignal status current then
        (p.discardPendingSignalInteractions status).queueSignal status
        else p.discardPendingSignalInteractions status := by
  unfold received
  dsimp only
  rw [isIgnoredSignal_discard, shouldQueueSignal_discard]
  cases p.isIgnoredSignal status with
  | true => exact ⟨_, rfl, rfl, rfl⟩
  | false =>
    cases p.shouldQueueSignal status current with
    | false => exact ⟨_, rfl, rfl, rfl⟩
    | true =>
      refine ⟨_, ?_, ?_, rfl⟩ <;> simp <;> split <;> rfl

theorem getLsbD_takePendingSignal (p : Process) (n : ℕ) :
    p.takePendingSignal.2.pendingSignals.getLsbD n = true ↔
      p.pendingSignals.getLsbD n = true ∧ p.takePendingSignal.1 ≠ some (128 + (n : ℤ)) := by
  unfold takePendingSignal
  split
  · next k _ =>
    rw [getLsbD_clearPendingSignal, Bool.and_eq_true, decide_eq_true_eq]
    refine and_congr_right' (not_congr ⟨fun h => by rw [h], fun h => ?_⟩)
    have := some.inj h
    omega
  split
  · exact (and_iff_left (by simp)).symm
  next h0 =>
  rw [not_not.1 h0]
  simp

/-- One step queues and removes pending signals as it says. -/
theorem getLsbD_signalStep (p : Process) (e : SignalStep) (n : ℕ) :
    (p.signalStep e).pendingSignals.getLsbD n = true ↔
      e.Queues n p ∨ p.pendingSignals.getLsbD n = true ∧ ¬e.Removes n p := by
  cases e with
  | generate signal current =>
    obtain ⟨q, hq, -, heq⟩ := p.received_signals signal.defaultStatus current
    simp only [signalStep, SignalStep.Queues, SignalStep.Removes]
    rw [← hq, heq]
    split
    · next hc =>
      rw [getLsbD_queueSignal, Bool.or_eq_true, getLsbD_discardPendingSignalInteractions,
        decide_eq_true_eq, or_comm, eq_comm, and_iff_left hc]
    next hc =>
    rw [getLsbD_discardPendingSignalInteractions]
    exact (or_iff_right fun h => hc h.2).symm
  | sigchld =>
    simp only [signalStep, SignalStep.Queues, SignalStep.Removes]
    rw [getLsbD_queueSignal]
    simp [or_comm]
  | setAction signal handler mask flags =>
    simp only [signalStep, setSignalAction, SignalStep.Queues, SignalStep.Removes]
    by_cases hs : signal < 32
    · by_cases hh : handler = ignoreHandler
      · simp [hs, hh, getLsbD_clearPendingSignal]
      · simp [hs, hh]
    · simp [hs]
  | take =>
    simp only [signalStep, SignalStep.Queues, SignalStep.Removes]
    rw [getLsbD_takePendingSignal]
    simp
  | _ => simp [signalStep, SignalStep.Queues, SignalStep.Removes,
      State.resetCaughtSignalHandlersForExec]

/-- The status names a signal whose bit is set, and the mask leaves out KILL and STOP. -/
structure SignalsAgree (p : Process) : Prop where
  status : ∀ status, p.pendingSignalStatus = some status →
    ∃ signal : Signal, status = signal.defaultStatus ∧ p.pendingSignals.getLsbD signal.number
  mask : ∀ n, isUncatchableSignal n → p.signalMask.getLsbD n = false

section
variable (h : p.SignalsAgree)
include h

theorem SignalsAgree.congr {q : Process} (hbits : q.pendingSignals = p.pendingSignals)
    (hlast : q.pendingSignalStatus = p.pendingSignalStatus) (hmask : q.signalMask = p.signalMask) :
    q.SignalsAgree :=
  ⟨by rw [hlast, hbits]; exact h.status, by rw [hmask]; exact h.mask⟩

theorem SignalsAgree.clearPendingSignal (k : ℕ) : (p.clearPendingSignal k).SignalsAgree := by
  refine ⟨fun status hst => ?_, h.mask⟩
  simp only [Process.clearPendingSignal] at hst
  split at hst
  · cases hst
  next hne =>
  obtain ⟨signal, rfl, hbit⟩ := h.status status hst
  refine ⟨signal, rfl, ?_⟩
  rw [getLsbD_clearPendingSignal, hbit, Bool.true_and, decide_eq_true_eq]
  rintro rfl
  exact hne ⟨signal.number_lt, hst⟩

theorem SignalsAgree.discard (status : ℤ) :
    (p.discardPendingSignalInteractions status).SignalsAgree := by
  unfold discardPendingSignalInteractions
  split
  · exact h
  split
  · exact (((h.clearPendingSignal _).clearPendingSignal _).clearPendingSignal
      _).clearPendingSignal _
  split
  · exact h.clearPendingSignal _
  · exact h

theorem SignalsAgree.queueSignal (signal : Signal) :
    (p.queueSignal signal.defaultStatus).SignalsAgree := by
  refine ⟨fun status hst => ⟨signal, (some.inj hst).symm, ?_⟩, h.mask⟩
  rw [getLsbD_queueSignal]
  simp

theorem SignalsAgree.signalStep (e : SignalStep) : (p.signalStep e).SignalsAgree := by
  cases e with
  | generate signal current =>
    obtain ⟨q, hbits, hlast, heq⟩ := p.received_signals signal.defaultStatus current
    have hq : q.SignalsAgree := by
      rw [heq]
      split
      · exact (h.discard _).queueSignal signal
      · exact h.discard _
    have hmask : (p.received signal.defaultStatus current).signalMask = p.signalMask := by
      obtain ⟨_, _, _, hrec, -⟩ := p.received_eq signal.defaultStatus current
      rw [hrec]
    exact ⟨by rw [Process.signalStep, ← hlast, ← hbits]; exact hq.status,
      by rw [Process.signalStep, hmask]; exact h.mask⟩
  | sigchld => exact h.queueSignal .child
  | setMask mask =>
    refine ⟨h.status, fun n hn => ?_⟩
    simp only [Process.signalStep]
    rw [getLsbD_sanitizedSignalMask, hn]
    simp
  | setAction signal handler mask flags =>
    simp only [Process.signalStep, setSignalAction]
    split
    · split
      · refine SignalsAgree.clearPendingSignal ?_ signal
        exact h.congr rfl rfl rfl
      · exact h.congr rfl rfl rfl
    · exact h
  | exec => exact h.congr rfl rfl rfl
  | take =>
    simp only [Process.signalStep, takePendingSignal]
    split
    · exact h.clearPendingSignal _
    split
    · exact h
    · exact ⟨fun _ hst => (by cases hst), h.mask⟩
  | become q => exact h.congr rfl rfl rfl

theorem SignalsAgree.signalRun (steps : List SignalStep) : (p.signalRun steps).SignalsAgree := by
  induction steps generalizing p with
  | nil => exact h
  | cons e steps ih => exact ih (h.signalStep e)

/-- Only a signal whose bit is set is taken: the status alone is never left over. -/
theorem SignalsAgree.takePendingSignal {status : ℤ} (htake : p.takePendingSignal.1 = some status) :
    ∃ n : ℕ, status = 128 + n ∧ p.nextDeliverablePendingSignal = some n := by
  unfold Process.takePendingSignal at htake
  cases hnext : p.nextDeliverablePendingSignal with
  | some n =>
    rw [hnext] at htake
    exact ⟨n, (some.inj htake).symm, rfl⟩
  | none =>
    rw [hnext] at htake
    dsimp only at htake
    split at htake
    · cases htake
    next h0 =>
    obtain ⟨signal, -, hbit⟩ := h.status status htake
    rw [not_not.1 h0] at hbit
    simp at hbit

end

/-- A process that no signal was sent to yet. -/
structure Unsignalled (p : Process) : Prop where
  bits : p.pendingSignals = 0
  status : p.pendingSignalStatus = none
  mask : ∀ n, isUncatchableSignal n → p.signalMask.getLsbD n = false

theorem Unsignalled.signalsAgree (h : p.Unsignalled) : p.SignalsAgree :=
  ⟨fun _ hst => (by rw [h.status] at hst; cases hst), h.mask⟩

/-- A signal is pending exactly when it was queued and neither taken nor discarded since. -/
theorem Unsignalled.getLsbD_signalRun (h : p.Unsignalled) (steps : List SignalStep) (n : ℕ) :
    (p.signalRun steps).pendingSignals.getLsbD n = true ↔ p.QueuedSince steps n := by
  refine Lib.flag_iff_raisedSince (I := fun _ => True)
    (F := fun p : Process => p.pendingSignals.getLsbD n = true) (fun _ _ _ => trivial)
    (fun p e _ => getLsbD_signalStep p e n) trivial ?_ steps
  rw [h.bits]
  simp

/-- The process `q` comes from `p` by such steps. -/
def Steps (p q : Process) : Prop := ∃ steps, q = p.signalRun steps

theorem Steps.refl (p : Process) : p.Steps p := ⟨[], rfl⟩

theorem Steps.single (p : Process) (e : SignalStep) : p.Steps (p.signalStep e) := ⟨[e], rfl⟩

theorem Steps.trans (h : p.Steps q) (h' : q.Steps r) : p.Steps r := by
  obtain ⟨steps, rfl⟩ := h
  obtain ⟨steps', rfl⟩ := h'
  exact ⟨steps ++ steps', (List.foldl_append ..).symm⟩

theorem Steps.of_same (hpid : q.pid = p.pid) (hbits : q.pendingSignals = p.pendingSignals)
    (hlast : q.pendingSignalStatus = p.pendingSignalStatus) (hmask : q.signalMask = p.signalMask)
    (hhandlers : q.signalHandlers = p.signalHandlers) : p.Steps q := by
  refine ⟨[.become q], ?_⟩
  show q = { q with
    pid := p.pid
    pendingSignals := p.pendingSignals
    pendingSignalStatus := p.pendingSignalStatus
    signalMask := p.signalMask
    signalHandlers := p.signalHandlers }
  rw [← hpid, ← hbits, ← hlast, ← hmask, ← hhandlers]

end Process
end Ristux.Kernel
