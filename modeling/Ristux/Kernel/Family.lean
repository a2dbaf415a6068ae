import Ristux.Kernel.Changes

-- An exit leaves no process behind as the parent of another one: the children that share the
-- address space exit with it, the others go to init. While exits are nested, this holds of every
-- process whose exit is not under way.

namespace Ristux.Kernel
open Relation List

namespace State

/-- No process has the parent `c`. -/
def Childless (s : State) (c : Pid) : Prop := ∀ j q, s.get j = some q → q.parent ≠ some c

/-- Only init may be the parent of a process after it has ended, and it has no parent. -/
structure Tidy (s : State) : Prop where
  init : ∀ p, s.get initPid = some p → p.parent = none
  childless : ∀ c, c ≠ initPid → s.isZombie c → s.Childless c

/-- What nested exits keep up, from the state `s₀` on: a process that ended or was reaped has no
children, unless its exit is one of those under way. -/
structure Family (s₀ : State) (exiting : Pid → Prop) (t : State) : Prop where
  init : ∀ p, t.get initPid = some p → p.parent = none
  kept : (s₀.get initPid).isSome → (t.get initPid).isSome
  childless : ∀ c, c ≠ initPid → ¬exiting c →
    (t.isZombie c ∨ (s₀.get c).isSome ∧ t.get c = none) → t.Childless c

def KeepsFamily (s₀ : State) (exiting : Pid → Prop) (s t : State) : Prop :=
  Family s₀ exiting s → Family s₀ exiting t

variable {s₀ s t : State} {p q : Process}

theorem Tidy.family (h : s.Tidy) : Family s (fun _ => False) s where
  init := h.init
  kept := id
  childless c hc _ hended := by
    rcases hended with hz | ⟨hin, hout⟩
    · exact h.childless c hc hz
    · rw [hout] at hin
      cases hin

theorem Family.tidy (h : Family s₀ (fun _ => False) t) : t.Tidy :=
  ⟨h.init, fun c hc hz => h.childless c hc id (.inl hz)⟩

theorem isZombie_put (hp : s.get q.pid = some p) :
    (s.put q).isZombie c = if c = q.pid then q.state.isZombie else s.isZombie c := by
  rw [isZombie, get_put]
  split
  · next h => rw [h, hp]; rfl
  · rfl

/-- A change of one process that leaves it alive, if it was, and its parent or init as its
parent. -/
theorem keepsFamily_put (hp : s.get q.pid = some p)
    (hparent : q.parent = p.parent ∨ p.parent ≠ none ∧ (q.parent = some initPid ∨ q.parent = none))
    (hz : q.state.isZombie → p.state.isZombie) : KeepsFamily s₀ exiting s (s.put q) := by
  intro hs
  have hget : ∀ j r, (s.put q).get j = some r → j = q.pid ∧ r = q ∨ s.get j = some r := by
    intro j r hr
    rw [get_put] at hr
    split at hr
    · next hj =>
      rw [hj, hp] at hr
      exact .inl ⟨hj, (Option.some.inj hr).symm⟩
    · exact .inr hr
  refine ⟨fun r hr => ?_, fun h => ?_, fun c hc hex hended j r hr hchild => ?_⟩
  · rcases hget _ r hr with ⟨hj, rfl⟩ | hr
    · have hnone := hs.init p (by rw [hj]; exact hp)
      rcases hparent with h | ⟨h, -⟩
      · rw [h, hnone]
      · exact absurd hnone h
    · exact hs.init r hr
  · obtain ⟨r, hr⟩ := Option.isSome_iff_exists.1 (hs.kept h)
    rw [get_put]
    split
    · rw [hr]; rfl
    · rw [hr]; rfl
  have hbefore : s.isZombie c ∨ (s₀.get c).isSome ∧ s.get c = none := by
    rcases hended with hzc | ⟨hin, hout⟩
    · left
      rw [isZombie_put hp] at hzc
      split at hzc
      · next hcq => rw [hcq, isZombie, hp]; exact hz hzc
      · exact hzc
    right
    rw [get_put] at hout
    split at hout
    · exact ⟨hin, Option.map_eq_none_iff.1 hout⟩
    · exact ⟨hin, hout⟩
  rcases hget j r hr with ⟨-, rfl⟩ | hr
  · rcases hparent with h | ⟨-, h | h⟩
    · exact hs.childless c hc hex hbefore _ p hp (by rw [← h]; exact hchild)
    · rw [h] at hchild
      exact hc (Option.some.inj hchild).symm
    · rw [h] at hchild
      cases hchild
  · exact hs.childless c hc hex hbefore j r hr hchild

theorem containsSends_keepsFamily (s₀ : State) (exiting : Pid → Prop) :
    ContainsSends (fun _ => True) (KeepsFamily s₀ exiting) where
  refl _ := id
  trans h h' hs := h' (h hs)
  wake h _ := keepsFamily_put h (.inl rfl) (by simp [ProcessState.isZombie])
  sigchld h _ := keepsFamily_put h (.inl rfl) id
  adopt h hold hparent :=
    keepsFamily_put h (.inr ⟨by rw [hold]; simp, hparent⟩) id
  forget h := keepsFamily_put h (.inl rfl) id
  receive {_ p signal} h _ current := by
    obtain ⟨_, _, _, heq, -⟩ := p.received_eq signal.defaultStatus current
    have hparent : (p.received signal.defaultStatus current).parent = p.parent := by rw [heq]
    exact keepsFamily_put (by simpa using h) (.inl hparent) (by simp)
  stop h _ _ _ := keepsFamily_put h (.inl rfl) (by simp [ProcessState.isZombie])
  resume h _ := keepsFamily_put h (.inl rfl) (by simp [ProcessState.isZombie])
  leave _ _ _ hs := ⟨hs.init, hs.kept, hs.childless⟩
  queue _ _ hs := ⟨hs.init, hs.kept, hs.childless⟩
  ready h _ := keepsFamily_put h (.inl rfl) (by simp [ProcessState.isZombie])
  woken {_ p _} h _ := by
    refine keepsFamily_put h (.inl rfl) fun hz => ?_
    by_cases hb : p.state.isIoBlocked
    · simp [hb, ProcessState.isZombie] at hz
    · simpa [hb] using hz

theorem of_mem_sameSpaceChildren (h : c ∈ s.sameSpaceChildren parent space) :
    ∃ q, s.get c = some q ∧ q.parent = some parent ∧ q.addressSpace = space := by
  simp only [sameSpaceChildren, mem_map, mem_filter, Bool.and_eq_true, decide_eq_true_eq] at h
  obtain ⟨q, ⟨hq, h⟩, rfl⟩ := h
  exact ⟨q, Lib.Keyed.get_of_mem hq, h⟩

theorem Family.beginExit (hs : Family s₀ exiting s) (hp : s.get p.pid = some p)
    (reason : ExitReason) : Family s₀ (fun c => exiting c ∨ c = p.pid) (s.beginExit p reason).1 := by
  have hparent : (p.zombified reason).parent = p.parent := rfl
  have hget : ∀ j r, (s.beginExit p reason).1.get j = some r →
      ∃ r', s.get j = some r' ∧ r.parent = r'.parent := by
    intro j r hr
    rw [get_beginExit hp] at hr
    split at hr
    · next hj =>
      cases hr
      exact ⟨p, by rw [hj]; exact hp, hparent⟩
    · exact ⟨r, hr, rfl⟩
  refine ⟨fun r hr => ?_, fun h => ?_, fun c hc hex hended j r hr hchild => ?_⟩
  · obtain ⟨r', hr', heq⟩ := hget _ r hr
    rw [heq, hs.init r' hr']
  · rw [get_beginExit hp]
    split
    · rfl
    · exact hs.kept h
  rw [not_or] at hex
  obtain ⟨r', hr', heq⟩ := hget j r hr
  refine hs.childless c hc hex.1 ?_ j r' hr' (by rw [← heq]; exact hchild)
  rw [isZombie, get_beginExit hp, if_neg hex.2] at hended
  exact hended

theorem keepsFamily_reap (hpid : pid ≠ initPid) (hz : s.isZombie pid) :
    KeepsFamily s₀ exiting s (s.reap pid) := by
  intro hs
  have hget : ∀ j r, (s.reap pid).get j = some r → s.get j = some r := by
    intro j r hr
    rw [get_reap] at hr
    split at hr
    · cases hr
    · exact hr
  refine ⟨fun r hr => hs.init r (hget _ r hr), fun h => ?_,
    fun c hc hex hended j r hr => hs.childless c hc hex ?_ j r (hget j r hr)⟩
  · rw [get_reap, if_neg hpid.symm]
    exact hs.kept h
  rw [isZombie, get_reap] at hended
  split at hended
  · next hcp => rw [hcp]; exact .inl hz
  · exact hended

/-- The process `j` is no child of `old`. -/
def NotChildOf (old j : Pid) (s : State) : Prop := ∀ q, s.get j = some q → q.parent ≠ some old

theorem notChildOf_put (hp : s.get q.pid = some p)
    (hparent : p.parent ≠ some old → q.parent ≠ some old) (h : NotChildOf old j s) :
    NotChildOf old j (s.put q) := by
  intro r hr
  rw [get_put] at hr
  split at hr
  · next hj =>
    rw [hj, hp] at hr
    cases hr
    exact hparent (h p (by rw [hj]; exact hp))
  · exact h r hr

theorem containsWakes_notChildOf (hold : old ≠ initPid) (j : Pid) :
    ContainsWakes fun s t => NotChildOf old j s → NotChildOf old j t where
  refl _ := id
  trans h h' hs := h' (h hs)
  wake h _ := notChildOf_put h id
  sigchld h _ := notChildOf_put h id
  adopt h _ hparent := by
    refine notChildOf_put h fun _ hq => ?_
    rcases hparent with heq | heq <;> rw [heq] at hq
    · exact hold (Option.some.inj hq).symm
    · cases hq

theorem containsWakes_pids : ContainsWakes fun s t => t.pids = s.pids where
  refl _ := rfl
  trans h h' := h'.trans h
  wake _ _ := pids_put
  sigchld _ _ := pids_put
  adopt _ _ _ := pids_put

theorem notChildOf_adoptChild (hold : old ≠ initPid) (initExists : Bool) (acc : State × WakeList)
    (j : Pid) : NotChildOf old j (adoptChild old initExists acc j).1 := by
  obtain ⟨s, wake⟩ := acc
  unfold adoptChild
  dsimp only
  split
  · next hj => exact fun q hq => by rw [hj] at hq; cases hq
  next p hp =>
  split
  · next hne =>
    intro q hq
    cases hp.symm.trans hq
    exact hne
  have hput : NotChildOf old j
      (s.put { p with parent := if initExists then some initPid else none }) := by
    intro q hq
    rw [get_put, if_pos (pid_of_get hp).symm, hp] at hq
    cases hq
    cases initExists
    · simp
    · simpa using hold.symm
  split
  · exact wakeWaiterForChild_rel (containsWakes_notChildOf hold j) _ _ _ _ hput
  · exact hput

/-- The loop of `reparent_children_to_init` passes every process. -/
theorem childless_foldl_adoptChild (hold : old ≠ initPid) (initExists : Bool) (s : State)
    (wake : WakeList) : (s.pids.foldl (adoptChild old initExists) (s, wake)).1.Childless old := by
  have hloop : ∀ (l : List Pid) (acc : State × WakeList), ∀ j ∈ l,
      NotChildOf old j (l.foldl (adoptChild old initExists) acc).1 := by
    intro l
    induction l with
    | nil => exact fun _ _ h => absurd h not_mem_nil
    | cons i l ih =>
      intro acc j hj
      by_cases hjl : j ∈ l
      · exact ih _ j hjl
      obtain rfl : j = i := (mem_cons.1 hj).resolve_right hjl
      exact (containsWakes_notChildOf hold j).foldl
        (fun acc i _ => adoptChild_rel (containsWakes_notChildOf hold j) old initExists acc i)
        (adoptChild old initExists acc j) (notChildOf_adoptChild hold initExists acc j)
  have hpids := containsWakes_pids.foldl (l := s.pids)
    (fun acc i _ => adoptChild_rel containsWakes_pids old initExists acc i) (s, wake)
  intro j q hq
  refine hloop s.pids _ j ?_ q hq
  rw [← hpids]
  exact mem_pids.2 ⟨q, hq⟩

theorem Family.reparentChildrenToInit (hs : Family s₀ (fun c => exiting c ∨ c = pid) s)
    (hnotify : ∀ acc pgrp, KeepsFamily s₀ exiting acc.1
      (notifyOrphanedStoppedGroupWith exit acc pgrp).1) :
    Family s₀ exiting (s.reparentChildrenToInitWith exit pid wake).1 := by
  unfold reparentChildrenToInitWith
  split
  · next hpid =>
    refine ⟨hs.init, hs.kept, fun c hc hex => hs.childless c hc ?_⟩
    rw [hpid]
    exact not_or.2 ⟨hex, hc⟩
  next hpid =>
  have hF := (containsSends_keepsFamily s₀ fun c => exiting c ∨ c = pid).toContainsWakes
  have hadopt := hF.foldl (l := s.pids)
    (fun acc i _ => adoptChild_rel hF pid (s.get initPid).isSome acc i) (s, wake) hs
  have hchildless := childless_foldl_adoptChild hpid (s.get initPid).isSome s wake
  generalize s.pids.foldl (adoptChild pid (s.get initPid).isSome) (s, wake) = acc at *
  -- the process whose exit this is has no children left
  have hdone : Family s₀ exiting acc.1 := by
    refine ⟨hadopt.init, hadopt.kept, fun c hc hex hended => ?_⟩
    by_cases hcp : c = pid
    · rw [hcp]
      exact hchildless
    · exact hadopt.childless c hc (not_or.2 ⟨hex, hcp⟩) hended
  exact (containsSends_keepsFamily s₀ exiting).foldl
    (fun acc pgrp _ => hnotify acc pgrp) acc hdone

theorem keepsFamily_exitFuel (s₀ : State) (n : ℕ) : ∀ (exiting : Pid → Prop) (s : State)
    (pid : Pid) (reason : ExitReason), KeepsFamily s₀ exiting s (exitFuel n s pid reason).1 := by
  induction n with
  | zero => exact fun _ _ _ _ => id
  | succ n ih =>
    intro exiting s pid reason hs
    rw [exitFuel, exitStep]
    split
    · exact hs
    next p hp =>
    have hF := (containsSends_keepsFamily s₀ exiting).toContainsSignals
    have hzombie := hs.beginExit (get_self hp) reason
    rw [pid_of_get hp] at hzombie
    have hinit : ∀ c ∈ (s.beginExit p reason).1.sameSpaceChildren pid p.addressSpace,
        c ≠ initPid := by
      rintro c hc rfl
      obtain ⟨q, hq, hparent, -⟩ := of_mem_sameSpaceChildren hc
      rw [hzombie.init q hq] at hparent
      cases hparent
    have hchildren : Family s₀ (fun c => exiting c ∨ c = pid)
        ((s.beginExit p reason).1.exitAndReapSameSpaceChildrenWith (exitFuel n) pid p.addressSpace
          reason (s.beginExit p reason).2).1 :=
      exitAndReapSameSpaceChildrenWith_rel
        (containsSends_keepsFamily s₀ fun c => exiting c ∨ c = pid).toContainsWakes
        (fun t _ c _ _ => ih _ t c reason)
        (fun t _ c hc hz => keepsFamily_reap (hinit c hc) hz) _ hzombie
    dsimp only
    generalize (s.beginExit p reason).1.exitAndReapSameSpaceChildrenWith (exitFuel n) pid
      p.addressSpace reason (s.beginExit p reason).2 = acc at *
    have hown : Family s₀ (fun c => exiting c ∨ c = pid) (acc.1.letGo [p.addressSpace]) :=
      ⟨hchildren.init, hchildren.kept, hchildren.childless⟩
    have hadopted : Family s₀ exiting
        ((acc.1.letGo [p.addressSpace]).reparentChildrenToInitWith (exitFuel n) pid acc.2).1 :=
      hown.reparentChildrenToInit fun acc pgrp =>
        notifyOrphanedStoppedGroupWith_rel hF trivial trivial (fun t _ m _ => ih exiting t m _) pgrp
    generalize reparentChildrenToInitWith (exitFuel n) _ pid acc.2 = acc at *
    have hnotified := notifyExit_rel hF.toContainsWakes acc.1 p acc.2 hadopted
    exact ⟨hnotified.init, hnotified.kept, hnotified.childless⟩

end State
end Ristux.Kernel
