import Ristux.Kernel.Acts
import Ristux.Kernel.Delivery

-- An exit nested in another one is of a process that is not a zombie, or of one that was none
-- when the loop that ends it chose it.

variable {r p q : Process} {s t : State}

namespace Ristux.Kernel
open Ristux.Lib List Nat State

namespace State

/-- No process is brought to life. -/
def Shrinks (s t : State) : Prop := ∀ pid, t.isLive pid → s.isLive pid

def live (s : State) : ℕ := s.processes.entries.countP fun p => !p.state.isZombie

def depth (s : State) (pid : Pid) : ℕ := 2 * s.live + if s.isLive pid then 0 else 1

theorem isLive_iff : s.isLive pid ↔ ∃ p, s.get pid = some p ∧ p.state.isZombie = false := by
  rw [isLive]
  cases s.get pid <;> simp

theorem isZombie_iff : s.isZombie pid ↔ ∃ p, s.get pid = some p ∧ p.state.isZombie := by
  rw [isZombie]
  cases s.get pid <;> simp

theorem Shrinks.live_le (h : Shrinks s t) : t.live ≤ s.live := by
  refine Keyed.countP_le fun k a ha hlive => ?_
  obtain ⟨b, hb, hz⟩ := isLive_iff.1 (h k (isLive_iff.2 ⟨a, ha, by simpa using hlive⟩))
  exact ⟨b, hb, by simpa using hz⟩

theorem Shrinks.live_lt (h : Shrinks s t) (hs : s.isLive pid) (ht : ¬t.isLive pid) :
    t.live < s.live := by
  obtain ⟨b, hb, hz⟩ := isLive_iff.1 hs
  refine Keyed.countP_lt (fun k a ha hlive => ?_) hb (by simpa using hz) fun a ha hlive => ?_
  · obtain ⟨b, hb, hz⟩ := isLive_iff.1 (h k (isLive_iff.2 ⟨a, ha, by simpa using hlive⟩))
    exact ⟨b, hb, by simpa using hz⟩
  · exact ht (isLive_iff.2 ⟨a, ha, by simpa using hlive⟩)

theorem Shrinks.depth_le (h : Shrinks s t) (pid : Pid) : t.depth pid ≤ s.depth pid := by
  have hle := h.live_le
  unfold depth
  by_cases ht : t.isLive pid
  · rw [if_pos ht, if_pos (h pid ht)]
    omega
  by_cases hs : s.isLive pid
  · have := h.live_lt hs ht
    rw [if_neg ht, if_pos hs]
    omega
  · rw [if_neg ht, if_neg hs]
    omega

theorem depth_of_isLive (h : s.isLive pid) : s.depth pid = 2 * s.live := by simp [depth, h]

theorem isLive_put (hq : s.get p.pid = some q) :
    (s.put p).isLive i = if i = p.pid then !p.state.isZombie else s.isLive i := by
  rw [isLive, get_put]
  split
  · next h => rw [h, hq]; rfl
  · rfl

theorem shrinks_put (hq : s.get p.pid = some q) (h : p.state.isZombie = false → q.state.isZombie = false) :
    Shrinks s (s.put p) := by
  intro i hi
  rw [isLive_put hq] at hi
  split at hi
  · next hip =>
    rw [hip]
    exact isLive_iff.2 ⟨q, hq, h (by simpa using hi)⟩
  · exact hi

/-- Clearing pages changes the memory only. -/
theorem clearUserPages_eq (s : State) (i : ℕ) : ∃ spaces phys,
    s.clearUserPages i = { s with spaces := spaces, phys := phys } := ⟨_, _, rfl⟩

theorem destroyAddressSpaceHandle_eq (s : State) (i : ℕ) : ∃ spaces phys,
    s.destroyAddressSpaceHandle i = { s with spaces := spaces, phys := phys } := by
  unfold destroyAddressSpaceHandle
  split
  · exact s.clearUserPages_eq i
  · exact ⟨s.spaces, s.phys, rfl⟩

theorem clearTid_eq (s : State) (p : Process) : ∃ spaces phys,
    (s.clearTid p).1 = { s with spaces := spaces, phys := phys } := by
  unfold clearTid
  split
  · exact ⟨s.spaces, s.phys, rfl⟩
  · split
    · exact ⟨_, _, rfl⟩
    · exact ⟨_, _, rfl⟩

/-- What becoming a zombie does outside the memory. -/
theorem zombify_eq (s : State) (p : Process) (reason : ExitReason) : ∃ spaces phys,
    (s.zombify p reason).1 = { s.put (p.zombified reason) with
      spaces := spaces
      phys := phys
      vfs := s.vfs.closeAll (p.sharedMappings ++ p.fds.map FdEntry.vfsFd)
      current := if s.current = some p.pid then none else s.current } := by
  obtain ⟨spaces, phys, hclear⟩ := s.clearTid_eq p
  unfold zombify
  rw [show s.clearTid p = ((s.clearTid p).1, (s.clearTid p).2) from rfl, hclear]
  dsimp only
  split
  · exact ⟨_, _, rfl⟩
  · exact ⟨_, _, rfl⟩

theorem reap_eq (hp : s.get pid = some p) : ∃ spaces phys, s.reap pid = { s with
    processes := s.processes.remove pid
    vfs := s.vfs.closeAll (p.sharedMappings ++ p.fds.map FdEntry.vfsFd)
    spaces := spaces
    phys := phys } := by
  unfold reap
  rw [hp]
  obtain ⟨spaces, phys, h⟩ := destroyAddressSpaceHandle_eq { s with
    processes := s.processes.remove pid
    vfs := s.vfs.closeAll (p.sharedMappings ++ p.fds.map FdEntry.vfsFd) } p.addressSpace
  exact ⟨spaces, phys, h⟩

theorem reap_of_none (hp : s.get pid = none) : s.reap pid = s := by
  rw [reap, hp]

theorem get_zombify (hp : s.get p.pid = some p) :
    (s.zombify p reason).1.get i = if i = p.pid then some (p.zombified reason) else s.get i := by
  obtain ⟨spaces, phys, h⟩ := s.zombify_eq p reason
  rw [h]
  change (s.put (p.zombified reason)).get i = _
  rw [get_put, show (p.zombified reason).pid = p.pid from rfl]
  split
  · next hi => rw [hi, hp]; rfl
  · rfl

theorem get_beginExit (hp : s.get p.pid = some p) :
    (s.beginExit p reason).1.get i = if i = p.pid then some (p.zombified reason) else s.get i :=
  get_zombify (s := s.hold _) hp

theorem get_reap : (s.reap pid).get i = if i = pid then none else s.get i := by
  cases hp : s.get pid with
  | none =>
    rw [reap_of_none hp]
    split
    · next hi => rw [hi, hp]
    · rfl
  | some p =>
    obtain ⟨spaces, phys, h⟩ := reap_eq hp
    rw [h]
    exact Keyed.get_remove

theorem shrinks_reap : Shrinks s (s.reap pid) := by
  intro i hi
  rw [isLive, get_reap] at hi
  split at hi
  · simp at hi
  · exact hi

theorem back_put {R : Process → Process → Prop} (hr : (s.put q).get i = some r)
    (hR : ∀ p, R p p) (hp : s.get q.pid = some p) (hq : R p q) : ∃ p, s.get i = some p ∧ R p r := by
  rw [get_put] at hr
  split at hr
  · next hi =>
    rw [hi, hp] at hr
    cases hr
    exact ⟨p, by rw [hi]; exact hp, hq⟩
  · exact ⟨r, hr, hR r⟩

theorem zombify_current (s : State) (p : Process) (reason : ExitReason) :
    (s.zombify p reason).1.current = if s.current = some p.pid then none else s.current := by
  obtain ⟨spaces, phys, h⟩ := s.zombify_eq p reason
  rw [h]

theorem reap_current (s : State) (pid : Pid) : (s.reap pid).current = s.current := by
  cases hp : s.get pid with
  | none => rw [reap_of_none hp]
  | some p =>
    obtain ⟨spaces, phys, h⟩ := reap_eq hp
    rw [h]

end State

/-- What no signal, exit or wake changes about a process. -/
structure Process.SameSelf (p q : Process) : Prop where
  pgrp : q.pgrp = p.pgrp
  sid : q.sid = p.sid
  credentials : q.credentials = p.credentials
  signalMask : q.signalMask = p.signalMask
  signalHandlers : q.signalHandlers = p.signalHandlers
  addressSpace : q.addressSpace = p.addressSpace

theorem Process.SameSelf.refl (p : Process) : p.SameSelf p := ⟨rfl, rfl, rfl, rfl, rfl, rfl⟩

theorem Process.SameSelf.trans (h : p.SameSelf q) (h' : q.SameSelf r) : p.SameSelf r :=
  ⟨h'.pgrp.trans h.pgrp, h'.sid.trans h.sid, h'.credentials.trans h.credentials,
    h'.signalMask.trans h.signalMask, h'.signalHandlers.trans h.signalHandlers,
    h'.addressSpace.trans h.addressSpace⟩

theorem Process.sameSelf_received (p : Process) (status : ℤ) (current : Option Pid) :
    p.SameSelf (p.received status current) := by
  obtain ⟨bits, last, interrupted, heq, -⟩ := p.received_eq status current
  rw [heq]
  exact ⟨rfl, rfl, rfl, rfl, rfl, rfl⟩

/-- A change leaves a zombie its reason, or gives it one that `G` allows. -/
def Process.KeepsReason (G : Pid → ExitReason → Prop) (p q : Process) : Prop :=
  ∀ r, p.state = .zombie r → ∃ r', q.state = .zombie r' ∧ (r' = r ∨ G p.pid r')

variable {G : Pid → ExitReason → Prop}

theorem Process.KeepsReason.of_state
    (h : ∀ r, p.state = .zombie r → q.state = p.state) : p.KeepsReason G q :=
  fun r hr => ⟨r, (h r hr).trans hr, .inl rfl⟩

theorem Process.KeepsReason.live (h : p.KeepsReason G q)
    (hz : q.state.isZombie = false) : p.state.isZombie = false := by
  cases hst : p.state with
  | zombie r =>
    obtain ⟨r', hr', -⟩ := h r hst
    rw [hr'] at hz
    cases hz
  | _ => rfl

/-- What an act can do to a process of the table. -/
structure Process.Acted (G : Pid → ExitReason → Prop) (p q : Process) : Prop where
  self : p.SameSelf q
  signals : p.Steps q
  reason : p.KeepsReason G q

theorem Process.Acted.refl (p : Process) : p.Acted G p :=
  ⟨.refl p, .refl p, .of_state fun _ _ => rfl⟩

/-- Each process after an act was there before. One that runs then has not been ended. -/
theorem Act.acted (h : Act G s t) (hq : t.get i = some q) : ∃ p, s.get i = some p ∧ p.Acted G q ∧
    (t.current = some i → p.state.isZombie = false → q.state.isZombie = false) := by
  have hput : ∀ {p r : Process}, (s.put r).get i = some q → s.get r.pid = some p →
      p.SameSelf r → p.Steps r →
      (r.state = p.state ∨ p.state.isZombie = false ∧ r.state.isZombie = false) →
      ∃ p, s.get i = some p ∧ p.Acted G q ∧
        ((s.put r).current = some i → p.state.isZombie = false → q.state.isZombie = false) := by
    intro p r hget hp hself hsteps hst
    refine back_put (R := fun p q => p.Acted G q ∧
      ((s.put r).current = some i → p.state.isZombie = false → q.state.isZombie = false))
      hget (fun p => ⟨.refl p, fun _ => id⟩) hp ⟨⟨hself, hsteps, .of_state fun reason hr => ?_⟩, ?_⟩
    · rcases hst with hst | ⟨hz, -⟩
      · exact hst
      · rw [hr] at hz
        cases hz
    · rcases hst with hst | ⟨-, hz⟩
      · rw [hst]
        exact fun _ => id
      · exact fun _ _ => hz
  -- the acts that are no signal
  have hquiet : ∀ {p r : Process}, (s.put r).get i = some q → s.get r.pid = some p →
      (∃ state parent waiters exitStatus stopReported continuedReportPending timedWait,
        r = { p with state, parent, waiters, exitStatus, stopReported, continuedReportPending,
                     timedWait }) →
      (r.state = p.state ∨ p.state.isZombie = false ∧ r.state.isZombie = false) →
      ∃ p, s.get i = some p ∧ p.Acted G q ∧
        ((s.put r).current = some i → p.state.isZombie = false → q.state.isZombie = false) := by
    rintro p r hget hp ⟨_, _, _, _, _, _, _, rfl⟩ hst
    exact hput hget hp ⟨rfl, rfl, rfl, rfl, rfl, rfl⟩ (.of_same rfl rfl rfl rfl rfl) hst
  have hsame : s.get i = some q → ∃ p, s.get i = some p ∧ p.Acted G q ∧
      (t.current = some i → p.state.isZombie = false → q.state.isZombie = false) :=
    fun hq => ⟨q, hq, .refl q, fun _ => id⟩
  cases h with
  | wake h hb => exact hquiet hq h ⟨_, _, _, _, _, _, _, rfl⟩ (.inr ⟨by rw [hb]; rfl, rfl⟩)
  | sigchld h hi =>
    exact hput hq h ⟨rfl, rfl, rfl, rfl, rfl, rfl⟩ (.single _ .sigchld) (.inl rfl)
  | adopt h hold hparent => exact hquiet hq h ⟨_, _, _, _, _, _, _, rfl⟩ (.inl rfl)
  | forget h => exact hquiet hq h ⟨_, _, _, _, _, _, _, rfl⟩ (.inl rfl)
  | @receive p h signal current =>
    refine hput hq (by simpa using h) (p.sameSelf_received _ current)
      (.single p (.generate signal current)) ?_
    obtain ⟨-, -, -, -, hst | ⟨hb, hready⟩⟩ := p.received_eq signal.defaultStatus current
    · exact .inl hst
    · refine .inr ⟨?_, by rw [hready]; rfl⟩
      cases hst : p.state <;> rw [hst] at hb <;> first | rfl | cases hb
  | stop h hz => exact hquiet hq h ⟨_, _, _, _, _, _, _, rfl⟩ (.inr ⟨hz, rfl⟩)
  | resume h hs => exact hquiet hq h ⟨_, _, _, _, _, _, _, rfl⟩ (.inr ⟨by rw [hs]; rfl, rfl⟩)
  | leave => exact hsame hq
  | queue runQueue => exact hsame hq
  | held held => exact hsame hq
  | ready h hb =>
    exact hquiet hq h ⟨_, _, _, _, _, _, _, rfl⟩
      (.inr ⟨ProcessState.isZombie_of_isIoBlocked hb, rfl⟩)
  | @woken p wait h hw =>
    refine hquiet hq h ⟨_, _, _, _, _, _, _, rfl⟩ ?_
    by_cases hb : p.state.isIoBlocked
    · exact .inr ⟨ProcessState.isZombie_of_isIoBlocked hb, by simp [hb, ProcessState.isZombie]⟩
    · exact .inl (if_neg hb)
  | reap h hz =>
    rw [get_reap] at hq
    split at hq
    · cases hq
    · exact hsame hq
  | @zombify p reason h hg =>
    rw [get_zombify h] at hq
    split at hq
    · next hi =>
      cases hq
      refine ⟨p, by rw [hi]; exact h, ⟨⟨rfl, rfl, rfl, rfl, rfl, rfl⟩,
        .of_same rfl rfl rfl rfl rfl, fun r _ => ⟨reason, rfl, .inr hg⟩⟩, fun hcur => ?_⟩
      rw [zombify_current, hi] at hcur
      split at hcur
      · cases hcur
      · next hne => exact absurd hcur hne
    · exact hsame hq

theorem Act.current (h : Act G s t) (ht : t.current = some pid) : s.current = some pid := by
  cases h with
  | leave => cases ht
  | reap h hz =>
    rw [reap_current] at ht
    exact ht
  | zombify h hg =>
    rw [zombify_current] at ht
    split at ht
    · cases ht
    · exact ht
  | _ => exact ht

namespace State
theorem shrinks_of_act (h : Act G s t) : Shrinks s t := by
  intro i hi
  obtain ⟨q, hq, hz⟩ := isLive_iff.1 hi
  obtain ⟨p, hp, ha, -⟩ := h.acted hq
  exact isLive_iff.2 ⟨p, hp, ha.reason.live hz⟩

theorem containsSignals_shrinks : ContainsSignals (fun _ => True) Shrinks :=
  (ContainsSends.of_act (fun _ _ => id) (fun h h' pid hp => h pid (h' pid hp))
    shrinks_of_act).toContainsSignals

theorem shrinks_beginExit (h : s.get p.pid = some p) : Shrinks s (s.beginExit p reason).1 :=
  shrinks_of_act (G := fun _ _ => True) (s := s.hold _) (.zombify h trivial)

theorem shrinks_exitStep (hexit : ∀ t m r, Shrinks t (exit t m r).1) (s : State)
    (pid : Pid) (reason : ExitReason) : Shrinks s (exitStep exit s pid reason).1 := by
  have hS := containsSignals_shrinks
  cases hp : s.get pid with
  | none => rw [exitStep, hp]; exact hS.refl s
  | some p =>
    refine hS.trans (shrinks_beginExit (get_self hp)) (exitStep_rel hS.toContainsWakes
      (fun _ _ _ => id) hp
      (fun t _ c _ _ => hexit t c reason) (fun _ _ _ _ => shrinks_reap) fun acc _ pgrp => ?_)
    exact notifyOrphanedStoppedGroupWith_rel hS trivial trivial (fun t _ m _ => hexit t m _) pgrp

theorem shrinks_exitFuel (n : ℕ) : ∀ s pid reason, Shrinks s (exitFuel n s pid reason).1 := by
  induction n with
  | zero => exact fun s _ _ _ => id
  | succ n ih => exact shrinks_exitStep ih

section Congr
variable {f g : Exit}

theorem foldl_congr_from {F G : State × WakeList → ι → State × WakeList} {l : List ι}
    (h : ∀ acc, Shrinks s acc.1 → ∀ i ∈ l, F acc i = G acc i ∧ Shrinks acc.1 (G acc i).1)
    (hacc : Shrinks s acc.1) : l.foldl F acc = l.foldl G acc := by
  induction l generalizing acc with
  | nil => rfl
  | cons i l ih =>
    obtain ⟨heq, hsh⟩ := h acc hacc i mem_cons_self
    rw [foldl_cons, foldl_cons, heq]
    exact ih (fun acc ha j hj => h acc ha j (mem_cons_of_mem _ hj))
      (containsSignals_shrinks.trans hacc hsh)

theorem signalWith_congr
    (h : ∀ t, Shrinks s t → f t pid (.ofStatus status) = g t pid (.ofStatus status))
    (current : Option Pid) :
    s.signalWith f pid status current = s.signalWith g pid status current := by
  unfold signalWith
  split
  · rfl
  next p hp =>
  have hdis : Shrinks s (s.put (p.discardPendingSignalInteractions status)) :=
    shrinks_put (by simpa using get_self hp) (by simp)
  dsimp only
  rw [h _ hdis]

theorem signalMemberWith_congr {signal : Signal}
    (h : ∀ t, Shrinks acc.1 t → f t pid (.ofStatus signal.defaultStatus) =
      g t pid (.ofStatus signal.defaultStatus)) : signalMemberWith f signal acc pid =
    signalMemberWith g signal acc pid := by
  have hcont := continueMember_rel containsSignals_shrinks signal acc pid
  unfold signalMemberWith
  dsimp only
  rw [signalWith_congr fun u hu => h u (containsSignals_shrinks.trans hcont hu)]

variable (hfg : ∀ t m r, depth t m ≤ n → f t m r = g t m r) (hg : ∀ t m r, Shrinks t (g t m r).1)

include hfg hg

theorem signalProcessGroupWith_congr (hn : 2 * s.live ≤ n) (pgrp : Pid) (signal : Signal)
    (wake : WakeList) :
    s.signalProcessGroupWith f pgrp signal wake = s.signalProcessGroupWith g pgrp signal wake := by
  have hS := containsSignals_shrinks
  refine foldl_congr_from (fun acc hacc m hm => ⟨?_, ?_⟩) (hS.refl s)
  · refine signalMemberWith_congr fun t ht => hfg t m _ ?_
    have hle := (hS.trans hacc ht).depth_le m
    rw [depth_of_isLive (isLive_of_mem_processGroupMembers hm)] at hle
    exact hle.trans hn
  · exact signalMemberWith_rel hS trivial fun _ t _ => hg t m _

theorem notifyOrphanedStoppedGroupWith_congr (hn : 2 * acc.1.live ≤ n) (pgrp : Pid) :
    notifyOrphanedStoppedGroupWith f acc pgrp = notifyOrphanedStoppedGroupWith g acc pgrp := by
  have hS := containsSignals_shrinks
  obtain ⟨s, wake⟩ := acc
  unfold notifyOrphanedStoppedGroupWith
  dsimp only
  rw [signalProcessGroupWith_congr hfg hg hn]
  have hhup : Shrinks s (s.signalProcessGroupWith g pgrp .hup wake).1 :=
    signalProcessGroupWith_rel hS trivial (fun _ t _ m _ => hg t m _) wake
  rw [signalProcessGroupWith_congr hfg hg (le_trans (mul_le_mul_left 2 hhup.live_le) hn)]

theorem reparentChildrenToInitWith_congr (hn : 2 * s.live ≤ n) (oldParent : Pid) (wake : WakeList) :
    s.reparentChildrenToInitWith f oldParent wake =
      s.reparentChildrenToInitWith g oldParent wake := by
  have hS := containsSignals_shrinks
  unfold reparentChildrenToInitWith
  split
  · rfl
  have hadopt := hS.foldl (l := s.pids)
    (fun acc pid _ => adoptChild_rel hS.toContainsWakes oldParent (s.get initPid).isSome acc pid)
    (s, wake)
  refine foldl_congr_from (fun acc hacc pgrp _ => ⟨?_, ?_⟩) hadopt
  · exact notifyOrphanedStoppedGroupWith_congr hfg hg
      (le_trans (mul_le_mul_left 2 hacc.live_le) hn) pgrp
  · exact notifyOrphanedStoppedGroupWith_rel hS trivial trivial (fun t _ m _ => hg t m _) pgrp

theorem exitAndReapSameSpaceChildrenWith_congr (hn : 2 * s.live ≤ n) (parent : Pid) (space : ℕ)
    (reason : ExitReason) (wake : WakeList) :
    s.exitAndReapSameSpaceChildrenWith f parent space reason wake =
      s.exitAndReapSameSpaceChildrenWith g parent space reason wake := by
  have hS := containsSignals_shrinks
  unfold exitAndReapSameSpaceChildrenWith
  have hfold : (s.sameSpaceChildren parent space).foldl (exitChildWith f reason) (s, wake) =
      (s.sameSpaceChildren parent space).foldl (exitChildWith g reason) (s, wake) := by
    refine foldl_congr_from (fun acc hacc c _ => ?_) (hS.refl s)
    obtain ⟨t, w⟩ := acc
    unfold exitChildWith
    dsimp only
    split
    · next hl =>
      have hle := hacc.live_le
      dsimp only at hle
      rw [hfg t c reason (by rw [depth_of_isLive hl]; omega)]
      exact ⟨rfl, hg t c reason⟩
    · exact ⟨rfl, hS.refl _⟩
  dsimp only
  rw [hfold]

theorem exitStep_congr (hp : s.get pid = some p) (hn : 2 * (s.beginExit p reason).1.live ≤ n) :
    exitStep f s pid reason = exitStep g s pid reason := by
  have hS := containsSignals_shrinks
  unfold exitStep
  rw [hp]
  dsimp only
  rw [exitAndReapSameSpaceChildrenWith_congr hfg hg hn]
  have hchild : Shrinks (s.beginExit p reason).1 ((s.beginExit p
    reason).1.exitAndReapSameSpaceChildrenWith
      g pid p.addressSpace reason (s.beginExit p reason).2).1 :=
    exitAndReapSameSpaceChildrenWith_rel hS.toContainsWakes
      (fun t _ c _ _ => hg t c reason) (fun _ _ _ _ _ => shrinks_reap) _
  generalize exitAndReapSameSpaceChildrenWith g _ _ _ _ _ = acc at hchild ⊢
  have hle : 2 * (acc.1.letGo [p.addressSpace]).live ≤ n :=
    le_trans (mul_le_mul_left 2 hchild.live_le) hn
  rw [reparentChildrenToInitWith_congr hfg hg hle]

end Congr

theorem live_beginExit_lt_depth (hp : s.get pid = some p) (reason : ExitReason) :
    2 * (s.beginExit p reason).1.live < s.depth pid := by
  have hsh : Shrinks s (s.beginExit p reason).1 := shrinks_beginExit (get_self hp)
  by_cases hl : s.isLive pid
  · have hdead : ¬(s.beginExit p reason).1.isLive pid := by
      rw [isLive, get_beginExit (get_self hp), if_pos (pid_of_get hp).symm]
      simp [Process.zombified, ProcessState.isZombie]
    have := hsh.live_lt hl hdead
    rw [depth_of_isLive hl]
    omega
  · have := hsh.live_le
    rw [depth, if_neg hl]
    omega

theorem exitFuel_succ (n : ℕ) : ∀ s pid reason, depth s pid < n →
    exitFuel n s pid reason = exitFuel (n + 1) s pid reason := by
  induction n with
  | zero => exact fun s pid reason h => absurd h (not_lt_zero _)
  | succ n ih =>
    intro s pid reason h
    cases hp : s.get pid with
    | none => simp [exitFuel, exitStep, hp]
    | some p =>
      have hlt := live_beginExit_lt_depth hp reason
      exact exitStep_congr
        (fun t m r hd => ih t m r (by omega)) (shrinks_exitFuel _) hp le_rfl

theorem exitFuel_add (k : ℕ) (hn : depth s pid < n) :
    exitFuel (n + k) s pid reason = exitFuel n s pid reason := by
  induction k with
  | zero => rfl
  | succ k ih => rw [← ih]; exact (exitFuel_succ (n + k) s pid reason (by omega)).symm

/-- Any two bounds above the depth give the same exit. -/
theorem exitFuel_eq (hn : depth s pid < n) (hm : depth s pid < m) :
    exitFuel n s pid reason = exitFuel m s pid reason := by
  rcases le_total n m with h | h
  · obtain ⟨k, rfl⟩ := Nat.exists_eq_add_of_le h
    exact (exitFuel_add k hn).symm
  · obtain ⟨k, rfl⟩ := Nat.exists_eq_add_of_le h
    exact exitFuel_add k hm

theorem depth_lt_exitDepth (s : State) (pid : Pid) : s.depth pid < s.exitDepth := by
  have hle : s.live ≤ s.processes.entries.length := countP_le_length
  unfold depth exitDepth
  split <;> omega

/-- `exit_with_reason` calls itself, as in the source. -/
theorem exitWithReason_eq (s : State) (pid : Pid) (reason : ExitReason) :
    exitWithReason s pid reason = exitStep exitWithReason s pid reason := by
  cases hp : s.get pid with
  | none => simp [exitWithReason, exitDepth, exitFuel, exitStep, hp]
  | some p =>
    have hlt := live_beginExit_lt_depth hp reason
    have hdepth := depth_lt_exitDepth s pid
    refine exitStep_congr (fun t m r hd => ?_) (fun t => shrinks_exitFuel _ t) hp le_rfl
    exact exitFuel_eq (by unfold exitDepth at hdepth; omega) (depth_lt_exitDepth t m)

end State
end Ristux.Kernel
