import Ristux.Kernel.Basic

-- The functions of `process/mod.rs` that queue, discard and choose the pending signals of a
-- process. A queued signal is recorded twice: as a bit of `pending_signals` and, for the last one
-- queued, as `pending_signal_status`.

namespace Ristux.Kernel
open Option Signal

def stopSignalFromStatus (status : ℤ) : Option ℕ :=
  match (signalFromLegacyStatus status).bind fromNumber with
  | some signal => if signal.hasStopDefault then some signal.number else none
  | none => none

theorem stopSignalFromStatus_eq_some {signal : Signal} {n : ℕ}
    (h : stopSignalFromStatus signal.defaultStatus = some n) :
    signal.hasStopDefault ∧ n = signal.number := by
  rw [stopSignalFromStatus, signalFromLegacyStatus_defaultStatus, bind_some, fromNumber_number] at h
  dsimp only at h
  split at h
  · next hs => exact ⟨hs, (some.inj h).symm⟩
  · cases h

variable (p : Process)

namespace Process

def signalHandler (signal : ℕ) : ℕ :=
  if h : signal < 32 then p.signalHandlers ⟨signal, h⟩ else defaultHandler

variable (status : ℤ)

def isIgnoredSignal : Bool :=
  match signalFromLegacyStatus status with
  | none => false
  | some signal =>
    if isUncatchableSignal signal then false
    else if p.signalHandler signal = defaultHandler ∧
        (fromNumber signal).any hasIgnoreDefault then true
    else p.signalHandler signal = ignoreHandler

def clearPendingSignal (signal : ℕ) : Process :=
  { p with
    pendingSignals :=
      if signal < 64 then p.pendingSignals &&& ~~~signalBit signal else p.pendingSignals
    pendingSignalStatus :=
      if signal < 32 ∧ p.pendingSignalStatus = some (128 + signal) then none
      else p.pendingSignalStatus }

def discardPendingSignalInteractions : Process :=
  match (signalFromLegacyStatus status).bind fromNumber with
  | none => p
  | some signal =>
    if signal = .cont then
      (((p.clearPendingSignal stop.number).clearPendingSignal
        tstp.number).clearPendingSignal
        ttin.number).clearPendingSignal ttou.number
    else if signal.hasStopDefault then p.clearPendingSignal cont.number
    else p

/-- Discarding changes the two records of pending signals and nothing else. -/
theorem discardPendingSignalInteractions_eq : ∃ bits last, p.discardPendingSignalInteractions status =
      { p with pendingSignals := bits, pendingSignalStatus := last } := by
  unfold discardPendingSignalInteractions
  repeat' split
  all_goals exact ⟨_, _, rfl⟩

@[simp] theorem pid_discardPendingSignalInteractions :
    (p.discardPendingSignalInteractions status).pid = p.pid := by
  obtain ⟨bits, last, h⟩ := p.discardPendingSignalInteractions_eq status
  rw [h]

@[simp] theorem state_discardPendingSignalInteractions :
    (p.discardPendingSignalInteractions status).state = p.state := by
  obtain ⟨bits, last, h⟩ := p.discardPendingSignalInteractions_eq status
  rw [h]

/-- The loop of `next_deliverable_pending_signal`: take the lowest bit off `pending` until one
of them can be delivered. A word has at most 64 bits to take. -/
def deliverableFrom (p : Process) : ℕ → BitVec 64 → Option ℕ
  | 0, _ => none
  | n + 1, pending =>
    if pending = 0 then none
    else
      let signal := trailingZeros pending
      let pending := pending &&& ~~~signalBit signal
      if signal = 0 then deliverableFrom p n pending
      else if !isUncatchableSignal signal && p.signalMask.getLsbD signal then
        deliverableFrom p n pending
      else some signal

def nextDeliverablePendingSignal : Option ℕ := p.deliverableFrom 64 p.pendingSignals

def shouldQueueSignal (current : Option Pid) : Bool :=
  if current = some p.pid then true
  else match signalFromLegacyStatus status with
    | none => false
    | some signal =>
      if isUncatchableSignal signal then false
      else (signal < 64 && p.signalMask.getLsbD signal) ||
        p.signalHandler signal ≠ defaultHandler

def queueSignal : Process :=
  { p with
    pendingSignalStatus := some status
    pendingSignals :=
      if 128 ≤ status ∧ status - 128 < 64 then
        p.pendingSignals ||| signalBit (status - 128).toNat
      else p.pendingSignals }

/-- What `signal` leaves of the process it is sent to, before the process is stopped or ended. -/
def received (current : Option Pid) : Process :=
  let p := p.discardPendingSignalInteractions status
  if p.isIgnoredSignal status then p
  else if p.shouldQueueSignal status current then
    let p := p.queueSignal status
    if p.nextDeliverablePendingSignal.isSome && p.state.isBlocked then
      { p with interruptedSyscall := true, state := .ready }
    else p
  else p

/-- The signal ends the process at once: it is neither ignored nor queued, and stops nobody. -/
def endedBy (current : Option Pid) : Bool :=
  !p.isIgnoredSignal status && !p.shouldQueueSignal status current &&
    (stopSignalFromStatus status).isNone

theorem endedBy_discardPendingSignalInteractions (current : Option Pid) :
    (p.discardPendingSignalInteractions status).endedBy status current =
      p.endedBy status current := by
  obtain ⟨bits, last, h⟩ := p.discardPendingSignalInteractions_eq status
  rw [h]
  rfl

/-- The body of `take_pending_signal_current`: the status that is taken, and the process
without it. -/
def takePendingSignal : Option ℤ × Process :=
  match p.nextDeliverablePendingSignal with
  | some signal => (some (128 + signal), p.clearPendingSignal signal)
  | none =>
    if p.pendingSignals ≠ 0 then (none, p)
    else (p.pendingSignalStatus, { p with pendingSignalStatus := none })

/-- A signal changes the pending signals of a process, and wakes it when it was blocked. -/
theorem received_eq (current : Option Pid) :
    ∃ bits last interrupted, p.received status current = { p with
        pendingSignals := bits
        pendingSignalStatus := last
        interruptedSyscall := interrupted
        state := (p.received status current).state } ∧
      ((p.received status current).state = p.state ∨
        p.state.isBlocked ∧ (p.received status current).state = .ready) := by
  obtain ⟨bits, last, h⟩ := p.discardPendingSignalInteractions_eq status
  unfold received
  rw [h]
  dsimp only
  split
  · exact ⟨_, _, _, rfl, .inl rfl⟩
  split
  · split
    · next hb => exact ⟨_, _, _, rfl, .inr ⟨(Bool.and_eq_true_iff.1 hb).2, rfl⟩⟩
    · exact ⟨_, _, _, rfl, .inl rfl⟩
  · exact ⟨_, _, _, rfl, .inl rfl⟩

@[simp] theorem pid_received (current : Option Pid) : (p.received status current).pid = p.pid := by
  obtain ⟨bits, last, interrupted, h, -⟩ := p.received_eq status current
  rw [h]

@[simp] theorem isZombie_received (current : Option Pid) :
    (p.received status current).state.isZombie = p.state.isZombie := by
  obtain ⟨-, -, -, -, h | ⟨hb, h⟩⟩ := p.received_eq status current
  · rw [h]
  · rw [h]
    cases hs : p.state <;> simp_all [ProcessState.isBlocked, ProcessState.isZombie]

/-- A signal of the word that the mask does not hold back. -/
def Deliverable (pending : BitVec 64) (s : ℕ) : Prop :=
  s ≠ 0 ∧ pending.getLsbD s ∧ (isUncatchableSignal s ∨ p.signalMask.getLsbD s = false)

variable {pending : BitVec 64}

theorem deliverable_and_not {p : Process} : p.Deliverable (pending &&& ~~~signalBit t) s ↔
    p.Deliverable pending s ∧ s ≠ t := by
  rw [Deliverable, Deliverable, getLsbD_and_not_signalBit, Bool.and_eq_true, decide_eq_true_eq]
  tauto

/-- The least signal of the word that can be delivered, or that there is none. -/
def IsLeastDeliverable (pending : BitVec 64) : Option ℕ → Prop
  | none => ∀ s, ¬p.Deliverable pending s
  | some s => p.Deliverable pending s ∧ ∀ i < s, ¬p.Deliverable pending i

theorem IsLeastDeliverable.of_and_not {p : Process}
    (ht : ¬p.Deliverable pending t) (h : p.IsLeastDeliverable (pending &&& ~~~signalBit t) o) :
    p.IsLeastDeliverable pending o := by
  have hiff : ∀ s, p.Deliverable (pending &&& ~~~signalBit t) s ↔ p.Deliverable pending s := by
    intro s
    rw [deliverable_and_not, and_iff_left_iff_imp]
    rintro hs rfl
    exact ht hs
  cases o with
  | none => exact fun s hs => h s ((hiff s).2 hs)
  | some s => exact ⟨(hiff s).1 h.1, fun i hi hd => h.2 i hi ((hiff i).2 hd)⟩

/-- With `n` steps left, the bits still in the word are the `n` highest. -/
theorem deliverableFrom_spec (hn : ∀ i, pending.getLsbD i → 64 ≤ i + n) :
    p.IsLeastDeliverable pending (p.deliverableFrom n pending) := by
  induction n generalizing pending with
  | zero =>
    intro s hs
    have hlt : s < 64 := BitVec.lt_of_getLsbD hs.2.1
    have hge := hn s hs.2.1
    omega
  | succ n ih =>
    rw [deliverableFrom]
    split
    · next h0 =>
      intro s hs
      have hbit := hs.2.1
      rw [h0] at hbit
      simp at hbit
    next hne =>
    obtain ⟨hbit, hlow⟩ := trailingZeros_spec hne
    have hrest : ∀ i, (pending &&& ~~~signalBit (trailingZeros pending)).getLsbD i →
        64 ≤ i + n := by
      intro i hi
      rw [getLsbD_and_not_signalBit, Bool.and_eq_true, decide_eq_true_eq] at hi
      have hge : trailingZeros pending ≤ i := by
        by_contra hlt
        rw [hlow i (by omega)] at hi
        simp at hi
      have := hn _ hbit
      omega
    have hskip := fun h => IsLeastDeliverable.of_and_not h (ih hrest)
    dsimp only
    split
    · next h0 => exact hskip fun hd => hd.1 h0
    next h0 =>
    split
    · next hmask =>
      rw [Bool.and_eq_true, Bool.not_eq_true'] at hmask
      refine hskip fun hd => ?_
      rcases hd.2.2 with hu | hm
      · rw [hmask.1] at hu
        simp at hu
      · rw [hmask.2] at hm
        simp at hm
    next hmask =>
    rw [Bool.and_eq_true, Bool.not_eq_true', not_and, Bool.not_eq_true] at hmask
    refine ⟨⟨h0, hbit, ?_⟩, fun i hi hd => ?_⟩
    · cases hu : isUncatchableSignal (trailingZeros pending) with
      | false => exact .inr (hmask hu)
      | true => exact .inl rfl
    have hb := hd.2.1
    rw [hlow i hi] at hb
    simp at hb

theorem nextDeliverablePendingSignal_spec :
    p.IsLeastDeliverable p.pendingSignals p.nextDeliverablePendingSignal :=
  p.deliverableFrom_spec fun _ _ => Nat.le_add_left _ _

end Process
end Ristux.Kernel
