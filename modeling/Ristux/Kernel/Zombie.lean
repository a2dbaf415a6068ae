import Ristux.Kernel.Runs

-- A zombie keeps the reason it ended for until it is reaped, but for a `kill`: the calls that
-- name one process, and the one to every process, do not pass over zombies and end them again.

namespace Ristux.Kernel
open Relation State List Option Lib Event Process

variable {r : ExitReason} {z : Process}

section
variable {s t : State} {m : Pid}

/-- The reason is the one the process ended for, if it is a zombie of `s`. -/
def Spares (s : State) (m : Pid) (reason : ExitReason) : Prop :=
  ∀ z r, s.get m = some z → z.state = .zombie r → reason = r

theorem Changes.zombie (h : Changes V (Spares s) s t) (hz : s.get m = some z)
    (hr : z.state = .zombie r) (hq : t.get m = some q) : q.state = .zombie r := by
  induction h generalizing q with
  | refl =>
    cases hz.symm.trans hq
    exact hr
  | tail _ h ih =>
    obtain ⟨p, hp, -, -, -, hkeep⟩ := h.changed hq
    obtain ⟨r', hr', rfl | hsp⟩ := hkeep r (ih hp)
    · exact hr'
    · rw [hr', hsp z r (by rw [pid_of_get hp]; exact hz) hr]

end

/-- A signal that ends processes is sent to no zombie that ended for another reason, and no
zombie is reported as continued. -/
def Event.SparesZombies (s : State) : Event → Prop
  | .kill pid sig => ∀ signal target z, Signal.fromNumber sig = some signal →
      s.KillTargets pid target → s.canSignalCurrent target (some signal.number) = some true →
      s.get target = some z → z.endedBy signal.defaultStatus s.current →
      Spares s target (.ofStatus signal.defaultStatus)
  | .sysKill pid sig => ∀ signal z, Signal.fromNumber sig = some signal → s.get pid = some z →
      z.endedBy signal.defaultStatus s.current → Spares s pid (.ofStatus signal.defaultStatus)
  | .wait4 _ _ _ _ continued _ => continued → ∀ m z, s.get m = some z → z.parent = s.current →
      z.state.isZombie → z.continuedReportPending = false
  | _ => True

namespace State
variable {s t : State} {m : Pid}

/-- Signals and exits change no credentials, so what may be signalled after them could be
before. -/
theorem canSignalCurrent_of_acts {signal : Option ℕ} (h : Acts G s t)
    (hc : t.canSignalCurrent m signal = some true) : s.canSignalCurrent m signal = some true := by
  obtain ⟨caller, hcur, hc⟩ := bind_eq_some_iff.1 hc
  obtain ⟨c, hcp, hc⟩ := bind_eq_some_iff.1 hc
  obtain ⟨q, hq, hc⟩ := bind_eq_some_iff.1 hc
  obtain ⟨c', hcp', hcs⟩ := h.back hcp
  obtain ⟨q', hq', hqs⟩ := h.back hq
  refine bind_eq_some_iff.2 ⟨caller, h.current hcur, ?_⟩
  refine bind_eq_some_iff.2 ⟨c', hcp', bind_eq_some_iff.2 ⟨q', hq', ?_⟩⟩
  rw [← hcs.credentials, ← hqs.credentials, ← hcs.sid, ← hqs.sid]
  exact hc

theorem endedBy_of_acts (h : Acts G s t) (hp : s.get m = some p)
    (hq : t.get m = some q) (hcur : s.current ≠ some m) (he : q.endedBy status t.current) :
    p.endedBy status s.current := by
  obtain ⟨p', hp', hself⟩ := h.back hq
  cases hp.symm.trans hp'
  have hign : q.isIgnoredSignal status = p.isIgnoredSignal status := by
    unfold isIgnoredSignal signalHandler
    rw [hself.signalHandlers]
  have hcur' : t.current ≠ some m := fun hc => hcur (h.current hc)
  have hqueue : q.shouldQueueSignal status t.current = p.shouldQueueSignal status s.current := by
    unfold shouldQueueSignal signalHandler
    rw [pid_of_get hp, pid_of_get hq, if_neg hcur, if_neg hcur', hself.signalHandlers,
      hself.signalMask]
  unfold endedBy at he ⊢
  rw [← hign, ← hqueue]
  exact he

theorem spares_of_isLive (h : s.isLive m) : Spares s m r := by
  intro z r' hz hr
  rw [isLive, hz, any_some, hr] at h
  cases h

variable {e : Event} {s : State}

theorem Sane.spares_of_reaches (hs : s.Sane) (he : e.SparesZombies s) (signal : Signal) (t : State)
    (q : Process) (ht : Acts (Spares s) s t)
    (hq : t.get q.pid = some q) (hreach : e.Reaches s signal t q)
    (hend : q.endedBy signal.defaultStatus t.current) :
    Spares s q.pid (.ofStatus signal.defaultStatus) := by
  intro z r hz hr
  have hcur : s.current ≠ some q.pid := fun hcur => by
    have := hs.currentLive q.pid z hcur hz
    rw [hr] at this
    cases this
  have hend' := endedBy_of_acts ht hz hq hcur hend
  -- the loops over a group pass over zombies
  have hgroup : ∀ pgrp, InGroup pgrp t q → False := fun pgrp hin => by
    have hlive := shrinks_of_acts ht q.pid (isLive_iff.2 ⟨q, hq, hin.2⟩)
    rw [isLive, hz, any_some, hr] at hlive
    cases hlive
  obtain ⟨hsig, hreach⟩ := hreach
  cases e with
  | kill pid sig =>
    obtain ⟨hperm, htarget | ⟨pgrp, -, hin⟩⟩ := hreach
    · exact he signal q.pid z hsig htarget (canSignalCurrent_of_acts ht hperm) hz hend' z r hz hr
    · exact (hgroup pgrp hin).elim
  | sysKill pid sig =>
    have hpid : q.pid = pid := hreach
    rw [hpid] at hz
    exact he signal z hsig hz hend' z r hz hr
  | signalPgrp pgrp sent => exact (hgroup pgrp hreach).elim
  | sendPgrp pgrp sent => exact (hgroup pgrp hreach).elim
  | _ => exact hreach.elim

/-- The process is a zombie that ended for the reason `r`, or is reaped. Its pid is not given
out again. -/
structure EndedFor (s : State) (m : Pid) (r : ExitReason) : Prop where
  old : m < s.nextPid
  zombie : ∀ z, s.get m = some z → z.state = .zombie r

/-- One event leaves the zombies that stay in the table their reasons. -/
theorem EndedFor.exec (h : s.EndedFor m r) (hs : s.Sane) (he : e.SparesZombies s) :
    (e.exec s).EndedFor m r := by
  by_cases ht : e.Tame
  · have hch : Changes Vfs.Steps (Spares s) s (e.exec s) :=
      changes ht hs.currentLive (fun _ _ => spares_of_isLive) (hs.spares_of_reaches he)
    refine ⟨by rw [hch.nextPid]; exact h.old, fun q hq => ?_⟩
    obtain ⟨p, hp, -⟩ := hch.back hq
    exact hch.zombie hp (h.zombie p hp) hq
  rcases not_tame ht with hb | ⟨p, child, -, hb⟩ | ⟨p, q', heq, hp, hmove⟩
  · refine ⟨by rw [hb.nextPid]; exact h.old, fun q hq => h.zombie q ?_⟩
    rw [State.get, ← hb.processes]
    exact hq
  · refine ⟨by rw [hb.nextPid]; exact Nat.lt_succ_of_lt h.old, fun q hq => h.zombie q ?_⟩
    rw [hs.get_born hb, if_neg (Nat.ne_of_lt h.old)] at hq
    exact hq
  rw [heq]
  refine ⟨h.old, fun q hq => ?_⟩
  obtain ⟨z, hz, hst⟩ := back_put (R := fun p q => q.state = p.state) hq (fun _ => rfl)
    (by rw [hmove.pid]; exact hp) hmove.state
  exact hst.trans (h.zombie z hz)

variable {status : WaitStatus} {parent : Pid}

theorem peekStopped_spec (h : s.peekStopped parent selector = some (m, status)) : ∃ p,
    s.get m = some p ∧ p.state.isStopped := by
  unfold peekStopped at h
  split at h
  · next p hp =>
    split at h
    · next signal hst =>
      cases h
      exact ⟨p, Keyed.get_of_mem (mem_of_find?_eq_some hp), by rw [hst]; rfl⟩
    · cases h
  · cases h

theorem peekContinued_spec (h : s.peekContinued parent selector = some (m, status)) : ∃ p,
    s.get m = some p ∧ p.parent = some parent ∧ p.continuedReportPending := by
  obtain ⟨p, hp, heq⟩ := map_eq_some_iff.1 h
  have hmatch := find?_some hp
  simp only [WaitSelector.matchesProcess, Bool.and_eq_true, decide_eq_true_eq] at hmatch
  cases heq
  exact ⟨p, Keyed.get_of_mem (mem_of_find?_eq_some hp), hmatch.1.1, hmatch.2⟩

theorem peekZombie_spec (h : s.peekZombie parent selector = some (m, status)) : ∃ p r,
    s.get m = some p ∧ p.state = .zombie r ∧ status = .ofReason r := by
  unfold peekZombie at h
  split at h
  · next p hp =>
    split at h
    · next r hst =>
      cases h
      exact ⟨p, r, Keyed.get_of_mem (mem_of_find?_eq_some hp), hst, rfl⟩
    · cases h
  · cases h

/-- The report of a zombie is its reason. -/
theorem peekWaitAny_zombie (h : s.peekWaitAny parent selector untraced continued = some (m, status))
    (hz : s.get m = some z) (hr : z.state = .zombie r)
    (hcont : continued → z.parent = some parent → z.continuedReportPending = false) :
    status = .ofReason r := by
  unfold peekWaitAny at h
  cases hst : (if untraced then s.peekStopped parent selector else none) with
  | some report =>
    rw [hst, orElse_some] at h
    cases h
    split at hst
    · obtain ⟨p, hp, hstop⟩ := peekStopped_spec hst
      cases hz.symm.trans hp
      rw [hr] at hstop
      cases hstop
    · cases hst
  | none =>
    rw [hst, orElse_none] at h
    cases hco : (if continued then s.peekContinued parent selector else none) with
    | some report =>
      rw [hco, orElse_some] at h
      cases h
      split at hco
      · next hc =>
        obtain ⟨p, hp, hpar, hpend⟩ := peekContinued_spec hco
        cases hz.symm.trans hp
        rw [hcont hc hpar] at hpend
        cases hpend
      · cases hco
    | none =>
      rw [hco, orElse_none] at h
      obtain ⟨p, r', hp, hst, rfl⟩ := peekZombie_spec h
      cases hz.symm.trans hp
      rw [hr] at hst
      cases hst
      rfl

/-- `wait4` has written the status of the zombie and an empty resource usage, and reaped it. -/
def Reported (s t : State) (m : Pid) (statusPtr rusagePtr : ℕ) (status : WaitStatus) : Prop :=
  ∃ u v, s.writeUserOpt statusPtr (u32Bytes status.encoded) = (true, u) ∧
    u.writeUserOpt rusagePtr (List.replicate rusageSize 0) = (true, v) ∧ t = v.reap m

theorem linuxWait4_zombie {pid : ℤ} (hm : m ≠ 0)
    (hspare : (wait4 pid statusPtr nohang untraced continued
      rusagePtr).SparesZombies s) (hz : s.get m = some z) (hr : z.state = .zombie r)
    (h : s.linuxWait4 pid statusPtr nohang untraced continued rusagePtr = (.done (.ok m), t)) :
    s.Reported t m statusPtr rusagePtr (.ofReason r) := by
  unfold linuxWait4 at h
  split at h
  · cases h
  · cases h
  next parent selector hcur _ =>
  split at h
  · next waited status hpeek =>
    split at h
    · cases h
    next u hu =>
    split at h
    · cases h
    next v hv =>
    have hwaited : waited = m := by
      cases status <;>
      · dsimp only at h
        split at h <;> cases h
        rfl
    subst hwaited
    have hcont : continued → z.parent = some parent → z.continuedReportPending = false :=
      fun hc hpar => hspare hc waited z hz (hpar.trans hcur.symm) (by rw [hr]; rfl)
    obtain rfl := peekWaitAny_zombie hpeek hz hr hcont
    refine ⟨u, v, hu, hv, ?_⟩
    have hreap : ∀ {b t'}, v.reapWaitedZombie parent waited = (b, t') → b = true →
        t' = v.reap waited := by
      intro b t' hb htrue
      unfold reapWaitedZombie at hb
      split at hb
      · cases hb
        cases htrue
      split at hb <;> cases hb
      · cases htrue
      · rfl
    cases hb : v.reapWaitedZombie parent waited with
    | mk b t' =>
      cases r <;>
      · dsimp only [WaitStatus.ofReason] at h
        rw [hb] at h
        split at h <;> cases h
        exact hreap hb ‹_›
  · split at h
    · cases h
    · split at h <;> cases h
      exact absurd rfl hm

end State

theorem Event.run_append (s : State) (pre post : List Event) :
    run s (pre ++ post) = run (run s pre) post :=
  foldl_append

theorem Event.Meets.of_append (h : Meets C s (pre ++ post)) : Meets C (run s pre) post := by
  induction pre generalizing s with
  | nil => exact h
  | cons e pre ih => exact ih h.2

theorem State.EndedFor.run (h : s.EndedFor m r) (hs : s.Sane)
    (hev : Meets (fun s e => e.SparesZombies s) s events) : (run s events).EndedFor m r :=
  (run_induct (P := fun t => t.EndedFor m r ∧ t.Sane)
    (fun _ e ht he => ⟨ht.1.exec ht.2 he, ht.2.exec e⟩) ⟨h, hs⟩ hev).1

/-- In a run that sends no zombie a signal that ends it for another reason, a process that is a
zombie stays one for the same reason until it is reaped, and `wait4` reports it. -/
theorem run_zombie_final (root : ℕ) (phys : Memory.PhysicalMemory) (pre post : List Event) {m : Pid}
    (h : Meets (fun s e => e.SparesZombies s) (boot root phys) (pre ++ post))
    (hz : (run (boot root phys) pre).get m = some z) (hr : z.state = .zombie r) :
    (∀ q, (run (boot root phys) (pre ++ post)).get m = some q → q.state = .zombie r) ∧
    ∀ pid statusPtr nohang untraced continued rusagePtr t q,
    (run (boot root phys) (pre ++ post)).get m = some q →
    (wait4 pid statusPtr nohang untraced continued rusagePtr).SparesZombies
    (run (boot root phys) (pre ++ post)) →
    (run (boot root phys) (pre ++ post)).linuxWait4 pid statusPtr nohang untraced continued
    rusagePtr = (.done (.ok m), t) → (run (boot root phys) (pre ++ post)).Reported t m statusPtr
    rusagePtr (.ofReason r) := by
  have hsane := (sane_boot root phys).run
  have hended : (run (boot root phys) (pre ++ post)).EndedFor m r := by
    rw [run_append]
    refine EndedFor.run ⟨(hsane pre).fresh m z hz, fun q hq => ?_⟩ (hsane pre) h.of_append
    cases hz.symm.trans hq
    exact hr
  refine ⟨hended.zombie, fun pid statusPtr nohang untraced continued rusagePtr t q hq hsp hw => ?_⟩
  exact linuxWait4_zombie ((hsane _).positive m q hq) hsp hq (hended.zombie q hq) hw

/-- The child 2 of init exits, after it has set SIGTERM to be ignored. -/
def childExit : List Event :=
  [.enter 1, .fork 0, .enter 2, .sigaction 15 (some (some ⟨ignoreHandler, 0, 0⟩)), .exit 7]

/-- SIGTERM reaches the zombie and changes nothing. -/
theorem run_zombie_final_childExit :
    ((run booted (childExit ++ [.enter 1, .kill 2 15])).get 2).map state =
      some (.zombie (.exited 7)) := by
  have hz : ((run booted childExit).get 2).map state = some (.zombie (.exited 7)) := by
    decide +kernel
  have hin : ((run booted (childExit ++ [.enter 1, .kill 2 15])).get 2).isSome := by
    decide +kernel
  have hignored : ((run booted (childExit ++ [.enter 1])).get 2).map
      (fun z => z.endedBy Signal.term.defaultStatus
        (run booted (childExit ++ [.enter 1])).current) = some false := by
    decide +kernel
  obtain ⟨z, hz, hr⟩ := map_eq_some_iff.1 hz
  obtain ⟨q, hq⟩ := isSome_iff_exists.1 hin
  have hmeets : Meets (fun s e => e.SparesZombies s) booted
      (childExit ++ [.enter 1, .kill 2 15]) := by
    refine ⟨trivial, trivial, trivial, trivial, trivial, trivial, ?_, trivial⟩
    intro signal target z hsig htarget _ hz hend
    obtain rfl : Signal.term = signal := some.inj hsig
    obtain rfl : target = 2 := by
      rcases htarget with ⟨-, h⟩ | ⟨h, -⟩
      · exact h
      · cases h
    have hget : (run booted (childExit ++ [.enter 1])).get 2 = some z := hz
    rw [hget, map_some] at hignored
    exact absurd (hend.symm.trans (some.inj hignored)) (by decide)
  rw [hq, map_some, (run_zombie_final 0 _ childExit _ hmeets hz hr).1 q hq]

/-- A second `kill` gives the zombie another reason, which `wait4` then reports; and a zombie that
was continued is reported as continued. -/
theorem kill_changes_zombie :
    ((run booted childExit).get 2).map state = some (.zombie (.exited 7)) ∧
    ((run booted (childExit ++ [.enter 1, .kill 2 9])).get 2).map state =
      some (.zombie (.signaled 9)) ∧
    (run booted (childExit ++ [.enter 1, .kill 2 9])).peekWaitAny 1 .any false false =
      some (2, .signaled 9) ∧ (run booted
      [.enter 1, .fork 0, .kill 2 19, .kill 2 18, .kill 2 9]).peekWaitAny 1 .any false true =
      some (2, .continued) := by
  decide +kernel

end Ristux.Kernel
