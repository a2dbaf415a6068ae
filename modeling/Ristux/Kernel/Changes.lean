import Ristux.Kernel.Depth
import Ristux.Kernel.Events

-- The functions that end, wake and signal processes are sequences of the changes of `Act`. The
-- exits they lead to are of processes that were alive at the start, but for the one a signal is
-- sent to.

namespace Ristux.Kernel
open Relation List Except Signal

namespace State
variable {R : State → State → Prop}
  {s₀ s t : State} {pid : Pid} {p : Process}

theorem shrinks_of_acts (h : Acts G s t) : Shrinks s t := by
  induction h with
  | refl => exact containsSignals_shrinks.refl s
  | tail _ h ih => exact containsSignals_shrinks.trans ih (shrinks_of_act h)

theorem acts_reap (h : s.isZombie pid) : Acts G s (s.reap pid) := by
  cases hp : s.get pid with
  | none => simp [isZombie, hp] at h
  | some p =>
    rw [isZombie, hp] at h
    have hact := Act.reap (G := G) (get_self hp) h
    rw [pid_of_get hp] at hact
    exact .single hact

/-- Nested exits end processes that were alive when the first one began. -/
theorem acts_exitFuel (hG : ∀ m r, s₀.isLive m → G m r) (n : ℕ) :
    ∀ s pid reason, Acts G s₀ s → G pid reason → Acts G s (exitFuel n s pid reason).1 := by
  have hA := containsSends_acts G
  induction n with
  | zero => exact fun s _ _ _ _ => hA.refl s
  | succ n ih =>
    intro s pid reason hs hroot
    cases hp : s.get pid with
    | none =>
      rw [exitFuel, exitStep, hp]
      exact hA.refl s
    | some p =>
      rw [← pid_of_get hp] at hroot
      have hz : Acts G s (s.beginExit p reason).1 :=
        .tail (.single (.held _)) (.zombify (get_self hp) hroot)
      have hlive : ∀ t m, Acts G (s.beginExit p reason).1 t → t.isLive m → s₀.isLive m :=
        fun t m ht hm => shrinks_of_acts (hA.trans hs (hA.trans hz ht)) m hm
      refine hA.trans hz (exitStep_rel hA.toContainsWakes (fun _ held => .single (.held held)) hp
        (fun t ht c _ hc => ?_) (fun t c _ hz => acts_reap hz) fun acc hacc pgrp => ?_)
      · exact ih t c reason (hA.trans hs (hA.trans hz ht)) (hG c _ (hlive t c ht hc))
      refine notifyOrphanedStoppedGroupWith_rel hA.toContainsSignals trivial trivial
        (fun t ht m hm => ?_) pgrp
      exact ih t m _ (hA.trans hs (hA.trans hz (hA.trans hacc ht))) (hG m _ (hlive acc.1 m hacc hm))

theorem acts_exitWithReason (hG : ∀ m r, s₀.isLive m → G m r)
    (hs : Acts G s₀ s) (hroot : G pid reason) : Acts G s (s.exitWithReason pid reason).1 :=
  acts_exitFuel hG _ s pid reason hs hroot

theorem isLive_of_mem_groupMembers (h : m ∈ s.groupMembers space) : s.isLive m := by
  simp only [groupMembers, mem_map, mem_filter, Bool.and_eq_true, decide_eq_true_eq] at h
  obtain ⟨p, ⟨hp, -, hz⟩, rfl⟩ := h
  rw [isLive, show s.get p.pid = some p from Lib.Keyed.get_of_mem hp]
  exact hz

theorem mem_exitOrder (h : m ∈ exitOrder members pid) : m ∈ members := by
  unfold exitOrder at h
  dsimp only at h
  split at h
  · next hpid =>
    rw [mem_append, mem_singleton] at h
    rcases h with h | rfl
    · exact (mem_insertionSort _).1 (mem_of_mem_erase h)
    · exact (mem_insertionSort _).1 hpid
  · exact (mem_insertionSort _).1 h

theorem exitGroup_rel (hR : ContainsWakes R)
    (hheld : ∀ (s : State) (held : List ℕ), R s { s with held := held })
    (hexit : ∀ t m, R s t → s.isLive m → R t (t.exitWithReason m (.exited status)).1)
    (hreap : ∀ t c, t.isZombie c → R t (t.reap c)) (pid : Pid) :
    R s (s.exitGroup pid status).1 := by
  unfold exitGroup
  split
  · exact hR.refl s
  next p hp =>
  have hexits : R s ((exitOrder (s.groupMembers p.addressSpace) pid).foldl
      (fun (acc : State × WakeList) member =>
        ((acc.1.exitWithReason member (.exited status)).1,
          acc.2.extend (acc.1.exitWithReason member (.exited status)).2))
      (s.hold [p.addressSpace], .new)).1 := by
    refine hR.foldl_from (fun acc hacc m hm => ?_) (hheld s _)
    exact hexit acc.1 m hacc (isLive_of_mem_groupMembers (mem_exitOrder hm))
  refine hR.trans hexits (hR.trans (hR.foldl_state (fun t c _ => ?_) _) (hheld _ _))
  unfold reapZombie
  split
  · next hz => exact hreap t c hz
  · exact hR.refl t

theorem acts_exitGroup (hG : ∀ m r, s.isLive m → G m r) (pid : Pid) (status : ℤ) :
    Acts G s (s.exitGroup pid status).1 :=
  exitGroup_rel (containsSends_acts G).toContainsWakes (fun _ held => .single (.held held))
    (fun _ m ht hm => acts_exitWithReason hG ht (hG m _ hm)) (fun _ _ hz => acts_reap hz) pid

/-- A relation that also contains the first part of an exit, and reaping, contains exits. -/
theorem exitFuel_rel (hR : ContainsSignals S R) (hhup : S .hup) (hcont : S .cont)
    (hheld : ∀ (s : State) (held : List ℕ), R s { s with held := held })
    (hzombify : ∀ (s : State) (p : Process) (reason : ExitReason), s.get p.pid = some p →
      R s (s.zombify p reason).1)
    (hreap : ∀ (s : State) (c : Pid), s.isZombie c → R s (s.reap c)) (n : ℕ) :
    ∀ s pid reason, R s (exitFuel n s pid reason).1 := by
  induction n with
  | zero => exact fun s _ _ => hR.refl s
  | succ n ih =>
    intro s pid reason
    cases hp : s.get pid with
    | none =>
      rw [exitFuel, exitStep, hp]
      exact hR.refl s
    | some p =>
      have hbegin : R s (s.beginExit p reason).1 :=
        hR.trans (hheld s _) (hzombify (s.hold _) p reason (get_self hp))
      refine hR.trans hbegin (exitStep_rel hR.toContainsWakes hheld hp
        (fun t _ c _ _ => ih t c reason) (fun t c _ hz => hreap t c hz) fun acc _ pgrp => ?_)
      exact notifyOrphanedStoppedGroupWith_rel hR hhup hcont (fun t _ m _ => ih t m _) pgrp

theorem enqueue_rel (hR : ContainsSends S R) (s : State) (pid : Pid) : R s (s.enqueue pid) := by
  unfold enqueue
  split
  · exact hR.refl s
  · exact hR.queue s _

theorem wakeBlocked_rel (hR : ContainsSends S R) (s : State) (pid : Pid) :
    R s (s.wakeBlocked pid) := by
  unfold wakeBlocked
  split
  · exact enqueue_rel hR s pid
  · exact hR.refl s

theorem isIoBlocked_of_ioWaiterIsDue (h : ioWaiterIsDue state now) : state.isIoBlocked := by
  unfold ioWaiterIsDue at h
  split at h <;> first | rfl | simp at h

section
variable (hR : ContainsSends S R)
include hR

theorem wakeIoWaiter_rel (now : Option ℕ) (s : State) (pid : Pid) : R s (wakeIoWaiter now s pid) := by
  unfold wakeIoWaiter
  split
  · exact hR.refl s
  next p hp =>
  split
  · next hd =>
    exact hR.trans (hR.ready (get_self hp) (isIoBlocked_of_ioWaiterIsDue hd))
      (wakeBlocked_rel hR _ _)
  · exact hR.refl s

theorem wakeIoWaiters_rel (s : State) : R s s.wakeIoWaiters :=
  hR.foldl_state (fun t i _ => wakeIoWaiter_rel hR none t i) s

theorem wakeExpiredIoWaiters_rel (s : State) (now : ℕ) : R s (s.wakeExpiredIoWaiters now) :=
  hR.foldl_state (fun t i _ => wakeIoWaiter_rel hR (some now) t i) s

theorem wakeIoWaitersFor_rel (s : State) (pid : Pid) : R s (s.wakeIoWaitersFor pid) := by
  unfold wakeIoWaitersFor
  split
  · exact hR.refl s
  next p hp =>
  split
  · next hb => exact hR.trans (hR.ready (get_self hp) hb) (wakeBlocked_rel hR _ _)
  · exact hR.refl s

theorem wakeTimedWaiter_rel (key : BitVec 64) (limit : ℕ)
    (acc : State × ℕ) (pid : Pid) : R acc.1 (wakeTimedWaiter key limit acc pid).1 := by
  obtain ⟨s, woken⟩ := acc
  unfold wakeTimedWaiter
  dsimp only
  split
  · exact hR.refl s
  split
  · exact hR.refl s
  next p hp =>
  split
  · exact hR.refl s
  next wait hw =>
  split
  · exact hR.trans (hR.woken (get_self hp) hw) (wakeBlocked_rel hR _ _)
  · exact hR.refl s

theorem wakeTimedWaiters_rel (s : State) (key : BitVec 64)
    (limit : ℕ) : R s (s.wakeTimedWaiters key limit).1 := by
  have hfold : ∀ (l : List Pid) (acc : State × ℕ),
      R acc.1 (l.foldl (wakeTimedWaiter key limit) acc).1 := by
    intro l
    induction l with
    | nil => exact fun acc => hR.refl acc.1
    | cons i l ih => exact fun acc => hR.trans (wakeTimedWaiter_rel hR key limit acc i) (ih _)
  exact hfold s.pids (s, 0)

theorem wakeProcesses_rel (s : State) (wake : WakeList) : R s (s.wakeProcesses wake) := by
  unfold wakeProcesses
  dsimp only
  refine hR.trans (hR.foldl_state (l := wake.timedWaits)
    (fun t w _ => wakeTimedWaiters_rel hR t w.key w.limit) s) ?_
  generalize foldl _ s wake.timedWaits = t
  refine hR.trans (hR.foldl_state (l := wake.pids) (fun t i _ => wakeBlocked_rel hR t i) t) ?_
  generalize foldl _ t wake.pids = u
  split
  · exact hR.foldl_state (fun t i _ => wakeBlocked_rel hR t i) u
  · exact hR.refl u

theorem wakeResult_rel (h : R s r.1) : R s (wakeResult r).1 := by
  obtain ⟨t, _ | wake⟩ := r
  · exact h
  · exact hR.trans h (wakeProcesses_rel hR t wake)

end

/-- The processes that satisfy `Q`, in any state on the way from `s`, may be ended by the
signal: their exits are in the relation. -/
def MayEnd (R : State → State → Prop) (s : State) (signal : Signal)
    (Q : State → Process → Prop) : Prop :=
  ∀ t p u, R s t → t.get p.pid = some p → Q t p → p.endedBy signal.defaultStatus t.current →
    R t u → R u (u.exitWithReason p.pid (.ofStatus signal.defaultStatus)).1

theorem mayEnd_acts {signal : Signal} (hG : ∀ m r, s.isLive m → G m r)
    (hQ : ∀ t p, Acts G s t → t.get p.pid = some p → Q t p →
      p.endedBy signal.defaultStatus t.current → G p.pid (.ofStatus signal.defaultStatus)) :
    MayEnd (Acts G) s signal Q :=
  fun t p _ ht hp hq hend hu => acts_exitWithReason hG (ht.trans hu) (hQ t p ht hp hq hend)

section
variable {signal : Signal}

theorem processSignal_rel (hR : ContainsSends S R) (hS : S signal) (hs : R s₀ s)
    (hend : MayEnd R s₀ signal Q) (hQ : ∀ p, s.get pid = some p → Q s p) :
    R s (s.processSignal pid signal.defaultStatus).1 := by
  refine wakeResult_rel hR (signalWith_rel hR.toContainsSignals hS fun t p ht hp hpe => ?_)
  have hexit := hend s p t hs (get_self hp) (hQ p hp) hpe ht
  rwa [pid_of_get hp] at hexit

/-- SIGCONT ends nobody. -/
theorem send_rel (hR : ContainsSends S R) (hS : S signal) (hs : R s₀ s)
    (hend : MayEnd R s₀ signal Q) (hQ : ∀ p, s.get pid = some p → Q s p) :
    R s (s.send pid signal).1 := by
  unfold send
  split
  · next hc =>
    subst hc
    exact hR.trans (wakeResult_rel hR (continueProcess_rel hR.toContainsSignals s pid))
      (wakeResult_rel hR (signalWith_cont_rel hR.toContainsSignals hS _ _ _ _))
  · exact processSignal_rel hR hS hs hend hQ

end

theorem walk_induct {next : α → Pid → Option Pid} {P : α → Prop}
    (hbody : ∀ a cursor pid, P a → next a cursor = some pid → P (body a pid)) (n : ℕ) :
    ∀ cursor a, P a → P (walk next body n cursor a) := by
  induction n with
  | zero => exact fun _ _ h => h
  | succ n ih =>
    intro cursor a ha
    rw [walk]
    split
    · exact ha
    · next pid hn => exact ih pid _ (hbody a cursor pid ha hn)

/-- The loops over a process group pass over zombies. -/
theorem nextPidInPgrpAfter_spec (h : s.nextPidInPgrpAfter pgrp cursor = some pid) :
    ∃ p, s.get pid = some p ∧ p.pgrp = pgrp ∧ p.state.isZombie = false := by
  have hmem := min?_mem h
  simp only [mem_map, mem_filter, Bool.and_eq_true, decide_eq_true_eq, Bool.not_eq_true'] at hmem
  obtain ⟨p, ⟨hp, ⟨-, hgrp⟩, hz⟩, rfl⟩ := hmem
  exact ⟨p, Lib.Keyed.get_of_mem hp, hgrp, hz⟩

/-- A member of a process group that a loop over the group does not pass over. -/
def InGroup (pgrp : Pid) (_ : State) (p : Process) : Prop :=
  p.pgrp = pgrp ∧ p.state.isZombie = false

theorem inGroup_of_nextPidInPgrpAfter
    (h : s.nextPidInPgrpAfter pgrp cursor = some pid) (hp : s.get pid = some p) :
    InGroup pgrp s p := by
  obtain ⟨q, hq, hin⟩ := nextPidInPgrpAfter_spec h
  cases hp.symm.trans hq
  exact hin

variable {pgrp : Pid}

section
variable (hR : ContainsSends S R) {signal : Signal} (hS : S signal)
  (hend : MayEnd R s signal (InGroup pgrp))
include hR hS hend

theorem signalPgrp_rel : R s (s.signalPgrp pgrp signal.defaultStatus).1 := by
  refine walk_induct (P := fun acc : State × Bool => R s acc.1) ?_ _ _ _ (hR.refl s)
  intro acc cursor pid hacc hnext
  exact hR.trans hacc (processSignal_rel hR hS hacc hend fun p hp =>
    inGroup_of_nextPidInPgrpAfter hnext hp)

theorem sendPgrp_rel : R s (s.sendPgrp pgrp signal).1 := by
  refine walk_induct (P := fun acc : State × Bool => R s acc.1) ?_ _ _ _ (hR.refl s)
  intro acc cursor pid hacc hnext
  exact hR.trans hacc (send_rel hR hS hacc hend fun p hp =>
    inGroup_of_nextPidInPgrpAfter hnext hp)

end

/-- The processes a `kill` may reach whether they are zombies or not: the one it names, or every
one but the caller and init. -/
def KillTargets (s : State) (pid : ℤ) (target : Pid) : Prop :=
  0 < pid ∧ target = pid.toNat ∨ pid = -1 ∧ s.current ≠ some target ∧ target ≠ 1

/-- The process group of a `kill` with no positive argument. -/
def killGroup (s : State) (pid : ℤ) : Option Pid :=
  if pid < -1 then some (-pid).toNat
  else if pid = 0 then s.currentProcess.map Process.pgrp else none

/-- The call may signal the process in the state `t`, and the process is one it is for. -/
def KillReaches (s : State) (pid : ℤ) (signal : Signal) (t : State) (p : Process) : Prop :=
  t.canSignalCurrent p.pid (some signal.number) = some true ∧
    (s.KillTargets pid p.pid ∨ ∃ pgrp, s.killGroup pid = some pgrp ∧ InGroup pgrp t p)

section
variable {signal : Option Signal} {Q : Signal → State → Process → Prop} (hR : ContainsSends S R)
  (hS : ∀ sig ∈ signal, S sig) (hend : ∀ sig ∈ signal, MayEnd R s sig (Q sig))
include hR hS hend

theorem deliverKillTarget_rel (hacc : R s acc.1)
    (hQ : ∀ sig ∈ signal, ∀ p, acc.1.get target = some p →
      acc.1.canSignalCurrent target (some sig.number) = some true → Q sig acc.1 p) :
    R s (deliverKillTarget signal acc target).1 := by
  obtain ⟨t, delivery⟩ := acc
  unfold deliverKillTarget
  dsimp only
  split
  · next hperm =>
    split
    · exact hacc
    next sig =>
    refine hR.trans hacc (send_rel hR (hS sig rfl) hacc (hend sig rfl) fun p hp => ?_)
    refine hQ sig rfl p hp ?_
    cases hc : t.canSignalCurrent target (some sig.number) with
    | none => simp [hc] at hperm
    | some b => simpa [hc] using hperm
  · exact hacc

theorem deliverKillPgrp_rel
    (hQ : ∀ sig ∈ signal, ∀ t p, t.canSignalCurrent p.pid (some sig.number) = some true →
      InGroup pgrp t p → Q sig t p) (delivery : KillDelivery) :
    R s (deliverKillPgrp pgrp signal (s, delivery)).1 := by
  refine walk_induct (P := fun acc : State × KillDelivery => R s acc.1) ?_ _ _ _ (hR.refl s)
  intro acc cursor pid hacc hnext
  refine deliverKillTarget_rel hR hS hend hacc fun sig hsig p hp hperm => ?_
  exact hQ sig hsig _ p (by rw [pid_of_get hp]; exact hperm)
    (inGroup_of_nextPidInPgrpAfter hnext hp)

theorem deliverKillAll_rel
    (hQ : ∀ sig ∈ signal, ∀ t p, t.canSignalCurrent p.pid (some sig.number) = some true →
      p.pid ≠ caller → p.pid ≠ 1 → Q sig t p) (delivery : KillDelivery) :
    R s (deliverKillAll caller signal (s, delivery)).1 := by
  refine walk_induct (P := fun acc : State × KillDelivery => R s acc.1) ?_ _ _ _ (hR.refl s)
  intro acc cursor target hacc _
  split
  · exact hacc
  next hne =>
  rw [not_or] at hne
  refine deliverKillTarget_rel hR hS hend hacc fun sig hsig p hp hperm => ?_
  rw [← pid_of_get hp] at hne hperm
  exact hQ sig hsig _ p hperm hne.1 hne.2

end

theorem fromNumber_of_killSignal {signal : Option Signal} (h : killSignal sig = .ok signal)
    (h' : signal' ∈ signal) : fromNumber sig = some signal' := by
  unfold killSignal at h
  split at h
  · cases h
    simp at h'
  split at h
  · next hn =>
    cases h
    rw [hn, Option.mem_some.1 h']
  · cases h

theorem linuxKill_rel (hR : ContainsSends S R) {pid : ℤ}
    (hS : ∀ signal, fromNumber sig = some signal → S signal)
    (hend : ∀ signal, fromNumber sig = some signal →
      MayEnd R s signal (KillReaches s pid signal)) : R s (s.linuxKill pid sig).2 := by
  unfold linuxKill
  split
  · exact hR.refl s
  next signal hsig =>
  have hfrom : ∀ sig' ∈ signal, fromNumber sig = some sig' :=
    fun _ => fromNumber_of_killSignal hsig
  have hS' : ∀ sig' ∈ signal, S sig' := fun sig' h => hS sig' (hfrom sig' h)
  have hend' : ∀ sig' ∈ signal, MayEnd R s sig' (KillReaches s pid sig') :=
    fun sig' h => hend sig' (hfrom sig' h)
  dsimp only
  split
  · exact hR.refl s
  next t delivery hdone =>
  -- the branches of the source, one for each form of the argument
  have ht : R s t := by
    split at hdone
    · next hneg =>
      split at hdone
      · cases hdone
      obtain rfl := congrArg Prod.fst (ok.inj hdone)
      refine deliverKillPgrp_rel hR hS' hend' (fun sig' _ t p hperm hin => ?_) _
      exact ⟨hperm, .inr ⟨_, by rw [killGroup, if_pos hneg], hin⟩⟩
    next hneg =>
    split at hdone
    · next hpid =>
      split at hdone
      · cases hdone
      next caller hcur =>
      obtain rfl := congrArg Prod.fst (ok.inj hdone)
      refine deliverKillAll_rel hR hS' hend' (fun sig' _ t p hperm hne h1 => ?_) _
      refine ⟨hperm, .inl (.inr ⟨hpid, ?_, h1⟩)⟩
      rw [hcur]
      exact fun h => hne (Option.some.inj h).symm
    split at hdone
    · next hzero =>
      split at hdone
      · cases hdone
      next q hcur =>
      obtain rfl := congrArg Prod.fst (ok.inj hdone)
      refine deliverKillPgrp_rel hR hS' hend' (fun sig' _ t p hperm hin => ?_) _
      refine ⟨hperm, .inr ⟨q.pgrp, ?_, hin⟩⟩
      rw [killGroup, if_neg hneg, if_pos hzero, hcur]
      rfl
    split at hdone
    · obtain rfl := congrArg Prod.fst (ok.inj hdone)
      refine deliverKillTarget_rel hR hS' hend' (hR.refl s) fun sig' _ p hp hperm => ?_
      rw [← pid_of_get hp] at hperm
      exact ⟨hperm, .inl (.inl ⟨by omega, pid_of_get hp⟩)⟩
    · obtain rfl := congrArg Prod.fst (ok.inj hdone)
      exact hR.refl s
  repeat' split
  all_goals exact ht

theorem sysKillActive_rel (hR : ContainsSends S R)
    (hS : ∀ signal, fromNumber sig = some signal → S signal)
    (hend : ∀ signal, fromNumber sig = some signal → MayEnd R s signal fun _ p => p.pid =
      pid) : R s (s.sysKillActive pid sig).2 := by
  unfold sysKillActive
  split
  · exact hR.refl s
  next signal hsig =>
  have hsend : R s (s.send pid signal).1 :=
    send_rel hR (hS signal hsig) (hR.refl s) (hend signal hsig) fun p hp => pid_of_get hp
  split <;> next h => rw [h] at hsend; exact hsend

end State

end Ristux.Kernel
