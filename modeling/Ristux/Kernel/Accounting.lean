import Ristux.Kernel.Runs

-- Every event of the kernel changes the signals of a process by steps of `SignalStep`, so that
-- each process of a run has a history of them. What the running process takes is accounted for by
-- it.

namespace Ristux.Kernel
open Relation State List Option Process

section
theorem Changes.steps (h : Changes V G s t) (hq : t.get m = some q) :
    ∃ p, s.get m = some p ∧ p.Steps q := by
  induction h generalizing q with
  | refl => exact ⟨q, hq, .refl q⟩
  | tail _ h ih =>
    obtain ⟨r, hr, -, -, hrq, -⟩ := h.changed hq
    obtain ⟨p, hp, hpr⟩ := ih hr
    exact ⟨p, hp, hpr.trans hrq⟩

end

/-- Each process came from one without signals. -/
def State.Accounted (s : State) : Prop :=
  ∀ m q, s.get m = some q → ∃ p : Process, p.Unsignalled ∧ p.Steps q

theorem State.Accounted.exec (h : s.Accounted) (hs : s.Sane) (e : Event) : (e.exec s).Accounted := by
  intro m q hq
  -- a process that was there before has one more piece of history
  have hold : (∃ p, s.get m = some p ∧ p.Steps q) → ∃ p : Process, p.Unsignalled ∧ p.Steps q := by
    rintro ⟨p, hp, hpq⟩
    obtain ⟨p₀, hp₀, hsteps⟩ := h m p hp
    exact ⟨p₀, hp₀, hsteps.trans hpq⟩
  by_cases he : e.Tame
  · exact hold ((Event.changes_tame he hs.currentLive).steps hq)
  rcases Event.not_tame he with hb | ⟨p, child, -, hb⟩ | ⟨p, r, heq, hp, hmove⟩
  · exact hold ⟨q, by rw [State.get, ← hb.processes]; exact hq, .refl q⟩
  · rw [hs.get_born hb] at hq
    split at hq
    · obtain rfl := some.inj hq
      obtain ⟨p₀, hp₀, steps, rfl⟩ := h _ p hb.parent
      refine ⟨child, ⟨hb.bits, hb.last, ?_⟩, .refl child⟩
      rw [hb.mask]
      exact (hp₀.signalsAgree.signalRun steps).mask
    · exact hold ⟨q, hq, .refl q⟩
  · rw [heq] at hq
    exact hold (back_put hq Steps.refl (by rw [hmove.pid]; exact hp)
      hmove.signals)

theorem State.accounted_boot (root : ℕ) (phys : Memory.PhysicalMemory) : (boot root phys).Accounted := by
  intro m q hq
  obtain ⟨hmem, -⟩ := Lib.Keyed.get_eq_some.1 hq
  obtain rfl := mem_singleton.1 hmem
  exact ⟨_, ⟨rfl, rfl, fun n _ => by simp [newUser]⟩, .refl _⟩

/-- Every process of a run has a history of signal steps: its last status names a pending signal,
and it masks neither KILL nor STOP. -/
theorem Event.run_accounted (root : ℕ) (phys : Memory.PhysicalMemory) (events : List Event) :
    (Event.run (boot root phys) events).Accounted ∧
      (Event.run (boot root phys) events).processes.entries.Forall SignalsAgree := by
  have hrun : ∀ (events : List Event) (s : State), s.Accounted → s.Sane →
      (Event.run s events).Accounted := by
    intro events
    induction events with
    | nil => exact fun _ h _ => h
    | cons e events ih => exact fun s h hs => ih _ (h.exec hs e) (hs.exec e)
  have h := hrun events _ (accounted_boot root phys) (sane_boot root phys)
  refine ⟨h, forall_iff_forall_mem.2 fun q hq => ?_⟩
  obtain ⟨p, hp, steps, rfl⟩ := h _ q (Lib.Keyed.get_of_mem hq)
  exact hp.signalsAgree.signalRun steps

/-- The signal `n` is the one to deliver after `steps`: it was queued since it was last taken or
discarded, the mask does not hold it, no lower one can be delivered, and whatever discards it in
the steps came before it was queued. -/
structure Process.Due (p : Process) (steps : List SignalStep) (n : ℕ) : Prop where
  queued : p.QueuedSince steps n
  unmasked : (p.signalRun steps).signalMask.getLsbD n = false
  deliverable : (p.signalRun steps).Deliverable (p.signalRun steps).pendingSignals n
  lowest : ∀ i < n, ¬(p.signalRun steps).Deliverable (p.signalRun steps).pendingSignals i
  after : ∀ pre signal current post, steps = pre ++ .generate signal current :: post →
    signal.Discards n →
      ((p.signalRun pre).signalStep (.generate signal current)).QueuedSince post n

/-- A stop signal does not discard itself, and neither does SIGCONT. -/
theorem Signal.Discards.ne {signal : Signal} {n : ℕ} (h : signal.Discards n) :
    signal.number ≠ n := by
  intro hn
  rcases h with ⟨rfl, other, hs, hother⟩ | ⟨hs, hcont⟩
  · rw [← Signal.number_injective (hn.trans hother)] at hs
    cases hs
  · rw [Signal.number_injective (hn.trans hcont)] at hs
    cases hs

/-- The lowest signal that can be delivered is due. -/
theorem Process.Unsignalled.due {p : Process} (hp : p.Unsignalled) (steps : List SignalStep) {n : ℕ}
    (h : (p.signalRun steps).IsLeastDeliverable (p.signalRun steps).pendingSignals (some n)) :
    p.Due steps n := by
  have hsince : p.QueuedSince steps n := (hp.getLsbD_signalRun steps n).1 h.1.2.1
  refine ⟨hsince, ?_, h.1, h.2, ?_⟩
  · exact h.1.2.2.elim ((hp.signalsAgree.signalRun steps).mask n) id
  intro pre signal current post hsteps hd
  subst hsteps
  have hafter := Lib.RaisedSince.after hsince hd fun hq => hd.ne hq.1
  rw [foldl_append, foldl_cons, foldl_nil] at hafter
  exact hafter

/-- Whose records of pending signals agree and who has nothing to deliver is left as it is. -/
theorem Process.SignalsAgree.takePendingSignal_none {p : Process} (h : p.SignalsAgree)
    (hnone : ∀ k, ¬p.Deliverable p.pendingSignals k) : p.takePendingSignal = (none, p) := by
  have hspec := p.nextDeliverablePendingSignal_spec
  cases hnext : p.nextDeliverablePendingSignal with
  | some n =>
    rw [hnext] at hspec
    exact absurd hspec.1 (hnone n)
  | none =>
    have hfst : p.takePendingSignal.1 = none := by
      rw [Option.eq_none_iff_forall_ne_some]
      intro status htake
      obtain ⟨n, -, hn⟩ := h.takePendingSignal htake
      rw [hnext] at hn
      cases hn
    unfold Process.takePendingSignal at hfst ⊢
    rw [hnext] at hfst ⊢
    dsimp only at hfst ⊢
    split
    · rfl
    · next h0 =>
      rw [if_neg h0] at hfst
      dsimp only at hfst
      rw [hfst, ← hfst]

namespace State

/-- The running process takes the lowest of its signals that can be delivered and loses it, or
nothing happens if there is none. What it takes was queued since it was last taken or discarded
and is not in the mask, which never holds KILL or STOP. A stop signal was queued after every
SIGCONT, and SIGCONT after every stop signal. -/
theorem takePendingSignalCurrent_accounting {p : Process} (hp : p.Unsignalled)
    (steps : List SignalStep) {s : State} {m : Pid} (hcur : s.current = some m)
    (hq : s.get m = some (p.signalRun steps)) :
    (∀ k, isUncatchableSignal k → (p.signalRun steps).signalMask.getLsbD k = false) ∧
    ((∀ k, ¬(p.signalRun steps).Deliverable (p.signalRun steps).pendingSignals k) →
      s.takePendingSignalCurrent = (none, s)) ∧
    (∀ k, (p.signalRun steps).Deliverable (p.signalRun steps).pendingSignals k →
      ∃ n ≤ k, p.Due steps n ∧ s.takePendingSignalCurrent =
        (some (m, n, (128 + n : ℤ)), s.put ((p.signalRun steps).clearPendingSignal n))) ∧
    ∀ n i, ((p.signalRun steps).clearPendingSignal n).pendingSignals.getLsbD i =
      ((p.signalRun steps).pendingSignals.getLsbD i && decide (i ≠ n)) := by
  have hagree := hp.signalsAgree.signalRun steps
  refine ⟨hagree.mask, ?_, ?_, fun n i => getLsbD_clearPendingSignal _ n i⟩
  · intro hnone
    have hself := put_self (p := p.signalRun steps) (by rw [pid_of_get hq]; exact hq)
    unfold takePendingSignalCurrent
    simp only [hcur, hq, hagree.takePendingSignal_none hnone, hself]
  · intro k hk
    have hspec := (p.signalRun steps).nextDeliverablePendingSignal_spec
    cases hnext : (p.signalRun steps).nextDeliverablePendingSignal with
    | none =>
      rw [hnext] at hspec
      exact absurd hk (hspec k)
    | some n =>
      rw [hnext] at hspec
      refine ⟨n, ?_, hp.due steps hspec, ?_⟩
      · by_contra hlt
        exact hspec.2 k (by omega) hk
      · have htake : (p.signalRun steps).takePendingSignal =
            (some (128 + (n : ℤ)), (p.signalRun steps).clearPendingSignal n) := by
          rw [takePendingSignal, hnext]
        have hn : (if 128 ≤ 128 + (n : ℤ) then (128 + (n : ℤ) - 128).toNat else 0) = n := by
          rw [if_pos (by omega)]
          omega
        unfold takePendingSignalCurrent
        simp only [hcur, hq, htake, hn]

/-- While it runs, a process is sent SIGTSTP, SIGCONT and SIGTERM. -/
def threeSignals : List SignalStep :=
  [.generate .tstp (some 1), .generate .cont (some 1), .generate .term (some 1)]

/-- Init after them. -/
def signalledThrice : State :=
  { booted.put ((newUser 1 none 0 .root).signalRun threeSignals) with current := some 1 }

/-- SIGTERM is taken first: its number is below that of SIGCONT, which took SIGTSTP away. -/
theorem takePendingSignalCurrent_accounting_threeSignals :
    (newUser 1 none 0 .root).Due threeSignals Signal.term.number ∧
      signalledThrice.takePendingSignalCurrent = (some (1, Signal.term.number, 143),
        signalledThrice.put (((newUser 1 none 0 .root).signalRun threeSignals).clearPendingSignal
          Signal.term.number)) := by
  have hp : (newUser 1 none 0 .root).Unsignalled := ⟨rfl, rfl, fun n _ => by simp [newUser]⟩
  have hpid : ((newUser 1 none 0 .root).signalRun threeSignals).pid = 1 := by decide +kernel
  have hq : signalledThrice.get 1 = some ((newUser 1 none 0 .root).signalRun threeSignals) := by
    show (booted.put ((newUser 1 none 0 .root).signalRun threeSignals)).get 1 = _
    rw [get_put, if_pos hpid.symm]
    rfl
  have hterm : ((newUser 1 none 0 .root).signalRun threeSignals).Deliverable
      ((newUser 1 none 0 .root).signalRun threeSignals).pendingSignals Signal.term.number :=
    ⟨by decide, by decide +kernel, .inr (by decide +kernel)⟩
  obtain ⟨n, hle, hdue, htake⟩ :=
    (takePendingSignalCurrent_accounting hp threeSignals rfl hq).2.2.1 _ hterm
  have hn : signalledThrice.takePendingSignalCurrent.1 = some (1, Signal.term.number, 143) := by
    decide +kernel
  rw [htake] at hn
  obtain ⟨rfl, -⟩ := Prod.mk.inj (Prod.mk.inj (some.inj hn)).2
  exact ⟨hdue, htake⟩

end State
end Ristux.Kernel
