import Ristux.Kernel.Exit

-- Every function of the process table changes the state by a sequence of small changes, each to
-- one process. `Act` lists them; an invariant of the process table is proved once for each of
-- them.

namespace Ristux.Kernel
open Relation List Signal Process ReflTransGen

/-- One change that an exit, a signal, a stop or a continue makes. A process becomes a zombie
for a reason `G` allows. -/
inductive Act (G : Pid → ExitReason → Prop) : State → State → Prop where
  | wake {s : State} {p : Process} {child : Pid} (h : s.get p.pid = some p)
      (hb : p.state = .blocked (.waitChild child)) : Act G s (s.put { p with state := .ready })
  | sigchld {s : State} {p : Process} (h : s.get p.pid = some p)
      (hi : p.isIgnoredSignal child.defaultStatus = false) :
      Act G s (s.put (p.queueSignal child.defaultStatus))
  | adopt {s : State} {p : Process} {old : Pid} {parent : Option Pid} (h : s.get p.pid = some p)
      (hold : p.parent = some old) (hparent : parent = some initPid ∨ parent = none) :
      Act G s (s.put { p with parent := parent })
  | forget {s : State} {p : Process} (h : s.get p.pid = some p) :
      Act G s (s.put { p with waiters := [] })
  | receive {s : State} {p : Process} (h : s.get p.pid = some p) (signal : Signal)
      (current : Option Pid) : Act G s (s.put (p.received signal.defaultStatus current))
  | stop {s : State} {p : Process} {signal : ℕ} (h : s.get p.pid = some p)
      (hz : p.state.isZombie = false) :
      Act G s (s.put { p with
        state := .stopped signal
        exitStatus := none
        stopReported := false
        continuedReportPending := false })
  | resume {s : State} {p : Process} {signal : ℕ} (h : s.get p.pid = some p)
      (hs : p.state = .stopped signal) :
      Act G s (s.put { p with
        state := .ready
        stopReported := false
        continuedReportPending := true })
  | leave {s : State} : Act G s { s with current := none }
  | queue {s : State} (runQueue : List Pid) : Act G s { s with runQueue := runQueue }
  | held {s : State} (held : List ℕ) : Act G s { s with held := held }
  | ready {s : State} {p : Process} (h : s.get p.pid = some p) (hb : p.state.isIoBlocked) :
      Act G s (s.put { p with state := .ready })
  | woken {s : State} {p : Process} {wait : TimedWait} (h : s.get p.pid = some p)
      (hw : p.timedWait = some wait) :
      Act G s (s.put { p with
        timedWait := some { wait with woken := true }
        state := if p.state.isIoBlocked then .ready else p.state })
  | reap {s : State} {p : Process} (h : s.get p.pid = some p) (hz : p.state.isZombie) :
      Act G s (s.reap p.pid)
  | zombify {s : State} {p : Process} {reason : ExitReason} (h : s.get p.pid = some p)
      (hg : G p.pid reason) : Act G s (s.zombify p reason).1

def Acts (G : Pid → ExitReason → Prop) : State → State → Prop := ReflTransGen (Act G)

theorem Acts.mono (hG : ∀ m r, G m r → G' m r) (h : Acts G s s') : Acts G' s s' := by
  refine ReflTransGen.mono (fun a b hab => ?_) _ _ h
  cases hab with
  | wake h hb => exact .wake h hb
  | sigchld h hi => exact .sigchld h hi
  | adopt h hold hparent => exact .adopt h hold hparent
  | forget h => exact .forget h
  | receive h signal current => exact .receive h signal current
  | stop h hz => exact .stop h hz
  | resume h hs => exact .resume h hs
  | leave => exact .leave
  | queue runQueue => exact .queue runQueue
  | held held => exact .held held
  | ready h hb => exact .ready h hb
  | woken h hw => exact .woken h hw
  | reap h hz => exact .reap h hz
  | zombify h hg => exact .zombify h (hG _ _ hg)

/-- A preorder that contains the changes made around an exit: those to a parent, and to the
children of the process that exits. -/
structure ContainsWakes (R : State → State → Prop) : Prop where
  refl : ∀ s, R s s
  trans : ∀ {a b c}, R a b → R b c → R a c
  wake : ∀ {s : State} {p : Process} {child : Pid}, s.get p.pid = some p →
    p.state = .blocked (.waitChild child) → R s (s.put { p with state := .ready })
  sigchld : ∀ {s : State} {p : Process}, s.get p.pid = some p →
    p.isIgnoredSignal child.defaultStatus = false →
    R s (s.put (p.queueSignal child.defaultStatus))
  adopt : ∀ {s : State} {p : Process} {old : Pid} {parent : Option Pid}, s.get p.pid = some p →
    p.parent = some old → parent = some initPid ∨ parent = none →
    R s (s.put { p with parent := parent })

/-- And those that a signal of the set `S` makes to the process it is sent to. -/
structure ContainsSignals (S : Signal → Prop) (R : State → State → Prop) : Prop
    extends ContainsWakes R where
  forget : ∀ {s : State} {p : Process}, s.get p.pid = some p → R s (s.put { p with waiters := [] })
  receive : ∀ {s : State} {p : Process} {signal : Signal}, s.get p.pid = some p → S signal →
    ∀ current : Option Pid, R s (s.put (p.received signal.defaultStatus current))
  stop : ∀ {s : State} {p : Process} {signal : Signal}, s.get p.pid = some p →
    p.state.isZombie = false → S signal → signal.hasStopDefault → R s (s.put { p with
      state := .stopped signal.number
      exitStatus := none
      stopReported := false
      continuedReportPending := false })
  resume : ∀ {s : State} {p : Process} {signal : ℕ}, s.get p.pid = some p →
    p.state = .stopped signal → R s (s.put { p with
      state := .ready
      stopReported := false
      continuedReportPending := true })
  leave : ∀ {signal : Signal} (s : State), S signal → signal.hasStopDefault →
    R s { s with current := none }

/-- And those that waking makes. -/
structure ContainsSends (S : Signal → Prop) (R : State → State → Prop) : Prop
    extends ContainsSignals S R where
  queue : ∀ (s : State) (runQueue : List Pid), R s { s with runQueue := runQueue }
  ready : ∀ {s : State} {p : Process}, s.get p.pid = some p → p.state.isIoBlocked →
    R s (s.put { p with state := .ready })
  woken : ∀ {s : State} {p : Process} {wait : TimedWait}, s.get p.pid = some p →
    p.timedWait = some wait → R s (s.put { p with
      timedWait := some { wait with woken := true }
      state := if p.state.isIoBlocked then .ready else p.state })

/-- A preorder that contains the changes of `Act` contains them all. -/
theorem ContainsSends.of_act (hrefl : ∀ s, R s s) (htrans : ∀ {a b c}, R a b → R b c → R a c)
    (hact : ∀ {s t}, Act (fun _ _ => False) s t → R s t) : ContainsSends S R where
  refl := hrefl
  trans := htrans
  wake h hb := hact (.wake h hb)
  sigchld h hi := hact (.sigchld h hi)
  adopt h hold hparent := hact (.adopt h hold hparent)
  forget h := hact (.forget h)
  receive h _ current := hact (.receive h _ current)
  stop h hz _ _ := hact (.stop h hz)
  resume h hs := hact (.resume h hs)
  leave _ _ _ := hact .leave
  queue _ runQueue := hact (.queue runQueue)
  ready h hb := hact (.ready h hb)
  woken h hw := hact (.woken h hw)

theorem containsSends_acts (G : Pid → ExitReason → Prop) : ContainsSends (fun _ => True) (Acts G) :=
  .of_act (fun _ => .refl) trans fun h =>
    Acts.mono (fun _ _ hf => hf.elim) (single h)

section
variable {l : List ι}

variable (hR : ContainsWakes R)
include hR

variable {f : State × WakeList → ι → State × WakeList}

/-- Each turn of a loop may use that the state it starts from is reached from the first one. -/
theorem ContainsWakes.foldl_from
    (h : ∀ acc, R s acc.1 → ∀ i ∈ l, R acc.1 (f acc i).1) (hacc : R s acc.1) :
    R s (l.foldl f acc).1 := by
  induction l generalizing acc with
  | nil => exact hacc
  | cons i l ih =>
    exact ih (fun acc ha j hj => h acc ha j (mem_cons_of_mem _ hj))
      (hR.trans hacc (h acc hacc i mem_cons_self))

theorem ContainsWakes.foldl (h : ∀ acc, ∀ i ∈ l, R acc.1 (f acc i).1) (acc : State × WakeList) :
    R acc.1 (l.foldl f acc).1 :=
  hR.foldl_from (fun acc _ => h acc) (hR.refl _)

theorem ContainsWakes.foldl_state_from {f : State → ι → State} {s₀ : State}
    (h : ∀ s, R s₀ s → ∀ i ∈ l, R s (f s i)) (s : State) (hs : R s₀ s) : R s (l.foldl f s) := by
  induction l generalizing s with
  | nil => exact hR.refl _
  | cons i l ih =>
    have hstep := h s hs i mem_cons_self
    exact hR.trans hstep
      (ih (fun s hs j hj => h s hs j (mem_cons_of_mem _ hj)) (f s i) (hR.trans hs hstep))

theorem ContainsWakes.foldl_state {f : State → ι → State}
    (h : ∀ s, ∀ i ∈ l, R s (f s i)) (s : State) : R s (l.foldl f s) :=
  hR.foldl_state_from (fun s _ => h s) s (hR.refl s)

end

namespace State
variable {s : State} {pid : Pid}

theorem get_self (h : s.get pid = some p) : s.get p.pid = some p := by rw [pid_of_get h]; exact h

theorem wakeWaiterForChild_rel (hR : ContainsWakes R) (s : State) (waiter child : Pid)
    (wake : WakeList) : R s (s.wakeWaiterForChild waiter child wake).1 := by
  unfold wakeWaiterForChild
  split
  · exact hR.refl _
  next p hp =>
  split
  · next c hc =>
    split
    · exact hR.wake (get_self hp) hc
    · exact hR.refl _
  · exact hR.refl _

theorem queueSigchld_rel (hR : ContainsWakes R) (s : State) (parent : Pid)
    (event : SigchldEvent) : R s (s.queueSigchld parent event) := by
  unfold queueSigchld
  split
  · exact hR.refl _
  next p hp =>
  split
  · exact hR.refl _
  split
  · exact hR.refl _
  next hi =>
  split
  · exact hR.sigchld (get_self hp) (by simpa using hi)
  · exact hR.refl _

section
variable (hR : ContainsSignals S R)
include hR

theorem wakeWaitersFor_rel (s : State) (pid : Pid) : R s (s.wakeWaitersFor pid).1 := by
  have hforget : R s (s.modify pid fun p => { p with waiters := [] }) := by
    unfold modify
    split
    · next p hp => exact hR.forget (get_self hp)
    · exact hR.refl _
  unfold wakeWaitersFor
  refine hR.trans hforget ?_
  generalize s.modify pid (fun p => { p with waiters := [] }) = t
  have hfold := fun l => hR.foldl (l := l)
    (fun acc waiter _ => wakeWaiterForChild_rel hR.toContainsWakes acc.1 waiter pid acc.2) (t, .new)
  dsimp only
  split
  · exact hR.trans (hfold _) (wakeWaiterForChild_rel hR.toContainsWakes _ _ _ _)
  · exact hfold _

theorem stop_rel {signal : ℕ} (hleave : ∀ t : State, R t { t with current := none })
    (hstop : ∀ p, s.get p.pid = some p → p.state.isZombie = false → R s (s.put { p with
      state := .stopped signal
      exitStatus := none
      stopReported := false
      continuedReportPending := false })) : R s (s.stop pid signal).1 := by
  unfold stop
  split
  · exact hR.refl _
  next p hp =>
  split
  · exact hR.refl _
  next hz =>
  refine hR.trans (hstop p (get_self hp) (by simpa using hz)) ?_
  dsimp only
  generalize s.put _ = t
  have hleave : R t (if t.current = some pid then { t with current := none } else t) := by
    split
    · exact hleave t
    · exact hR.refl _
  refine hR.trans hleave ?_
  generalize (if t.current = some pid then { t with current := none } else t) = t
  split
  · exact hR.trans (queueSigchld_rel hR.toContainsWakes _ _ _) (wakeWaitersFor_rel hR _ _)
  · exact wakeWaitersFor_rel hR _ _

theorem continueProcess_rel (s : State) (pid : Pid) : R s (s.continueProcess pid).1 := by
  unfold continueProcess
  split
  · exact hR.refl _
  next p hp =>
  split
  · next signal hs =>
    have hres := hR.resume (get_self hp) hs
    dsimp only
    split
    · exact hR.trans hres (hR.trans (queueSigchld_rel hR.toContainsWakes _ _ _)
        (wakeWaiterForChild_rel hR.toContainsWakes _ _ _ _))
    · exact hres
  · exact hR.refl _
  · exact hR.refl _

end

variable {signal : Signal}

section
variable (hR : ContainsSignals S R)
include hR

theorem signalWith_rel {current : Option Pid}
    (hS : S signal) (hexit : ∀ t p, R s t → s.get pid = some p →
      p.endedBy signal.defaultStatus current → R t (exit t pid (.ofStatus signal.defaultStatus)).1)
    : R s (s.signalWith exit pid signal.defaultStatus current).1 := by
  cases hp : s.get pid with
  | none => rw [signalWith, hp]; exact hR.refl _
  | some p =>
    have hrec : R s (s.put (p.received signal.defaultStatus current)) :=
      hR.receive (get_self hp) hS current
    have hstop := @stopSignalFromStatus_eq_some signal
    generalize signal.defaultStatus = status at hrec hexit hstop ⊢
    rw [signalWith, hp]
    dsimp only
    unfold received at hrec
    dsimp only at hrec
    split at hrec
    · next hi => rw [if_pos hi]; exact hrec
    next hi =>
    rw [if_neg hi]
    split at hrec
    · next hq =>
      rw [if_pos hq]
      split at hrec
      · next hb =>
        rw [if_pos hb]
        rw [put_put (by rfl)]
        exact hrec
      next hb =>
      rw [if_neg hb]
      rw [put_put (by rfl)]
      exact hrec
    next hq =>
    rw [if_neg hq]
    split
    · next n hn =>
      obtain ⟨hdef, rfl⟩ := hstop hn
      exact hR.trans hrec (stop_rel hR (fun t => hR.leave t hS hdef) fun p hp hz =>
        hR.stop hp hz hS hdef)
    next hstop =>
    refine hR.trans hrec (hexit _ p hrec hp ?_)
    rw [← endedBy_discardPendingSignalInteractions]
    simp [endedBy, hi, hq, hstop]

omit hR in
/-- SIGCONT never ends a process: by default it is ignored, and a handler or a mask queues it. -/
theorem queued_or_ignored_cont (p : Process) (current : Option Pid)
    (h : p.isIgnoredSignal cont.defaultStatus = false) :
    p.shouldQueueSignal cont.defaultStatus current = true := by
  have hu : isUncatchableSignal cont.number = false := rfl
  have hd : (fromNumber cont.number).any hasIgnoreDefault = true := rfl
  by_contra hq
  simp only [shouldQueueSignal, signalFromLegacyStatus_defaultStatus, hu] at hq
  simp only [isIgnoredSignal, signalFromLegacyStatus_defaultStatus, hu, hd] at h
  have hdef : p.signalHandler cont.number = defaultHandler := by
    by_contra hne
    exact hq (by simp [hne])
  simp [hdef] at h

theorem signalWith_cont_rel (hS : S .cont) (exit : Exit) (s : State)
    (pid : Pid) (current : Option Pid) :
    R s (s.signalWith exit pid cont.defaultStatus current).1 := by
  -- the exit is not reached, so any other one gives the same state
  have heq : s.signalWith exit pid cont.defaultStatus current =
      s.signalWith (fun s _ _ => (s, .new)) pid cont.defaultStatus current := by
    unfold signalWith
    split
    · rfl
    dsimp only
    split
    · rfl
    · next hi => rw [if_pos (queued_or_ignored_cont _ current (by simpa using hi)),
        if_pos (queued_or_ignored_cont _ current (by simpa using hi))]
  rw [heq]
  exact signalWith_rel hR hS fun t _ _ _ _ => hR.refl t

theorem continueMember_rel (signal : Signal) (acc : State × WakeList)
    (pid : Pid) : R acc.1 (continueMember signal acc pid).1 := by
  obtain ⟨s, wake⟩ := acc
  have hcont := continueProcess_rel hR s pid
  unfold continueMember
  dsimp only
  split
  · rcases hcp : s.continueProcess pid with ⟨t, _ | w⟩ <;> rw [hcp] at hcont <;> exact hcont
  · exact hR.refl _

omit hR in
theorem signalMemberWith_fst (exit : Exit) (signal : Signal) (acc : State × WakeList) (pid : Pid) :
    (signalMemberWith exit signal acc pid).1 =
      ((continueMember signal acc pid).1.signalWith exit pid signal.defaultStatus
        (continueMember signal acc pid).1.current).1 := by
  unfold signalMemberWith
  dsimp only
  split <;> next h => rw [h]

theorem signalMemberWith_rel (hS : S signal)
    (hexit : signal ≠ .cont → ∀ t, R acc.1 t → R t (exit t pid (.ofStatus signal.defaultStatus)).1)
    : R acc.1 (signalMemberWith exit signal acc pid).1 := by
  have hcont := continueMember_rel hR signal acc pid
  rw [signalMemberWith_fst]
  refine hR.trans hcont ?_
  by_cases hc : signal = .cont
  · rw [hc] at hS ⊢
    exact signalWith_cont_rel hR hS exit _ pid _
  · exact signalWith_rel hR hS fun t _ ht _ _ => hexit hc t (hR.trans hcont ht)

end

theorem signalProcessGroupWith_rel (hR : ContainsSignals S R) {pgrp : Pid} (hS : S signal)
    (hexit : signal ≠ .cont → ∀ t, R s t → ∀ m ∈ s.processGroupMembers pgrp,
      R t (exit t m (.ofStatus signal.defaultStatus)).1) (wake : WakeList) :
    R s (s.signalProcessGroupWith exit pgrp signal wake).1 := by
  unfold signalProcessGroupWith
  refine hR.foldl_from (fun acc hacc m hm => ?_) (hR.refl s)
  exact signalMemberWith_rel hR hS fun hc t ht => hexit hc t (hR.trans hacc ht) m hm

theorem isLive_of_mem_processGroupMembers {pgrp m : Pid} (h : m ∈ s.processGroupMembers pgrp) :
    s.isLive m := by
  simp only [processGroupMembers, mem_map, mem_filter, Bool.and_eq_true, decide_eq_true_eq] at h
  obtain ⟨p, ⟨hp, -, hz⟩, rfl⟩ := h
  rw [isLive, show s.get p.pid = some p from Lib.Keyed.get_of_mem hp]
  exact hz

/-- An orphaned group is sent SIGHUP, which ends members that were no zombies when it was
sent. -/
theorem notifyOrphanedStoppedGroupWith_rel (hR : ContainsSignals S R) (hhup : S .hup)
    (hcont : S .cont) (hexit : ∀ t, R acc.1 t → ∀ m, acc.1.isLive m →
      R t (exit t m (.signaled hup.number)).1) (pgrp : Pid) :
    R acc.1 (notifyOrphanedStoppedGroupWith exit acc pgrp).1 := by
  obtain ⟨s, wake⟩ := acc
  unfold notifyOrphanedStoppedGroupWith
  dsimp only
  split
  · have hfirst : R s (s.signalProcessGroupWith exit pgrp .hup wake).1 :=
      signalProcessGroupWith_rel hR hhup (fun _ t ht m hm => by
        exact hexit t ht m (isLive_of_mem_processGroupMembers hm)) wake
    exact hR.trans hfirst (signalProcessGroupWith_rel hR hcont (fun h => absurd rfl h) _)
  · exact hR.refl _

variable (hR : ContainsWakes R)
include hR

theorem adoptChild_rel (oldParent : Pid) (initExists : Bool) (acc : State × WakeList) (pid : Pid) :
    R acc.1 (adoptChild oldParent initExists acc pid).1 := by
  obtain ⟨s, wake⟩ := acc
  unfold adoptChild
  dsimp only
  split
  · exact hR.refl _
  next p hp =>
  split
  · exact hR.refl _
  next hold =>
  have hadopt : R s (s.put { p with parent := if initExists then some initPid else none }) :=
    hR.adopt (get_self hp) (not_not.1 hold) (by cases initExists <;> simp)
  split
  · exact hR.trans hadopt (wakeWaiterForChild_rel hR _ _ _ _)
  · exact hadopt

theorem reparentChildrenToInitWith_rel
    (hnotify : ∀ acc, R s acc.1 → ∀ pgrp, R acc.1 (notifyOrphanedStoppedGroupWith exit acc pgrp).1)
    (oldParent : Pid) (wake : WakeList) :
    R s (s.reparentChildrenToInitWith exit oldParent wake).1 := by
  unfold reparentChildrenToInitWith
  split
  · exact hR.refl _
  have hadopt := hR.foldl (l := s.pids)
    (fun acc pid _ => adoptChild_rel hR oldParent (s.get initPid).isSome acc pid) (s, wake)
  exact hR.foldl_from (fun acc hacc pgrp _ => hnotify acc hacc pgrp) hadopt

theorem exitAndReapSameSpaceChildrenWith_rel {parent : Pid}
    (hchild : ∀ t, R s t → ∀ c ∈ s.sameSpaceChildren parent space, t.isLive c →
      R t (exit t c reason).1)
    (hreap : ∀ t, R s t → ∀ c ∈ s.sameSpaceChildren parent space, t.isZombie c → R t (t.reap c))
    (wake : WakeList) :
    R s (s.exitAndReapSameSpaceChildrenWith exit parent space reason wake).1 := by
  have hexits : R s ((s.sameSpaceChildren parent space).foldl (exitChildWith exit reason)
      (s, wake)).1 := by
    refine hR.foldl_from (fun acc hacc c hc => ?_) (hR.refl s)
    obtain ⟨t, w⟩ := acc
    unfold exitChildWith
    dsimp only
    split
    · next hl => exact hchild t hacc c hc hl
    · exact hR.refl _
  refine hR.trans hexits (hR.foldl_state_from (fun t ht c hc => ?_) _ hexits)
  unfold reapZombie
  split
  · next hz => exact hreap t ht c hc hz
  · exact hR.refl _

theorem notifyExit_rel (s : State) (p : Process) (wake : WakeList) :
    R s (s.notifyExit p wake).1 := by
  have hwaiters := hR.foldl (l := p.waiters)
    (fun acc waiter _ => wakeWaiterForChild_rel hR acc.1 waiter p.pid acc.2) (s, wake)
  unfold notifyExit
  dsimp only
  refine hR.trans hwaiters ?_
  split
  · exact hR.trans (queueSigchld_rel hR _ _ _) (wakeWaiterForChild_rel hR _ _ _ _)
  · exact hR.refl _

/-- The parts of an exit, from the state in which the process has become a zombie. Each nested
exit may use the changes made before it. -/
theorem exitStep_rel (hheld : ∀ (s : State) (held : List ℕ), R s { s with held := held })
    (hp : s.get pid = some p) (hchild : ∀ t, R (s.beginExit p reason).1 t →
      ∀ c ∈ (s.beginExit p reason).1.sameSpaceChildren pid p.addressSpace,
      t.isLive c → R t (exit t c reason).1)
    (hreap : ∀ t, ∀ c ∈ (s.beginExit p reason).1.sameSpaceChildren pid p.addressSpace,
      t.isZombie c → R t (t.reap c)) (hnotify : ∀ acc, R (s.beginExit p reason).1 acc.1 → ∀ pgrp,
      R acc.1 (notifyOrphanedStoppedGroupWith exit acc pgrp).1) :
    R (s.beginExit p reason).1 (exitStep exit s pid reason).1 := by
  unfold exitStep
  rw [hp]
  dsimp only
  have hchildren := exitAndReapSameSpaceChildrenWith_rel hR hchild (fun t _ => hreap t)
    (s.beginExit p reason).2
  generalize exitAndReapSameSpaceChildrenWith exit _ _ _ _ _ = acc at hchildren ⊢
  replace hchildren := hR.trans hchildren (hheld acc.1 (acc.1.held.diff [p.addressSpace]))
  refine hR.trans hchildren (hR.trans (reparentChildrenToInitWith_rel hR
    (fun acc' h => hnotify acc' (hR.trans hchildren h)) pid acc.2) ?_)
  change R (reparentChildrenToInitWith exit (acc.1.letGo [p.addressSpace]) pid acc.2).1 _
  exact hR.trans (notifyExit_rel hR _ p _) (hheld _ _)

end State
end Ristux.Kernel
