import Ristux.Kernel.EventChanges

-- What holds in every state that the kernel reaches: process ids are below the next one to be
-- given out, and the process that runs is alive. What a change can do to a process of the table
-- is said here once.

namespace Ristux.Kernel
open Relation Lib Nat List Event State

namespace State
theorem zombify_nextPid (s : State) (p : Process) (reason : ExitReason) :
    (s.zombify p reason).1.nextPid = s.nextPid := by
  obtain ⟨spaces, phys, h⟩ := s.zombify_eq p reason
  rw [h]
  rfl

theorem reap_nextPid (s : State) (pid : Pid) : (s.reap pid).nextPid = s.nextPid := by
  cases hp : s.get pid with
  | none => rw [reap_of_none hp]
  | some p =>
    obtain ⟨spaces, phys, h⟩ := reap_eq hp
    rw [h]

end State

variable {s t : State} {i : Pid} {q child : Process} {e : Event}

theorem Act.nextPid (h : Act G s t) : t.nextPid = s.nextPid := by
  cases h with
  | reap h hz => exact reap_nextPid s _
  | zombify h hg => exact zombify_nextPid s _ _
  | _ => rfl

theorem Acts.back (h : Acts G s t) (hq : t.get i = some q) :
    ∃ p, s.get i = some p ∧ p.SameSelf q := by
  induction h generalizing q with
  | refl => exact ⟨q, hq, .refl q⟩
  | tail _ h ih =>
    obtain ⟨r, hr, hrq, -⟩ := h.acted hq
    obtain ⟨p, hp, hpr⟩ := ih hr
    exact ⟨p, hp, hpr.trans hrq.self⟩

theorem Acts.current (h : Acts G s t) (ht : t.current = some pid) : s.current = some pid := by
  induction h with
  | refl => exact ht
  | tail _ h ih => exact ih (h.current ht)

theorem Change.nextPid (h : Change V G s t) : t.nextPid = s.nextPid := by
  cases h with
  | act h => exact h.nextPid
  | @focus pid h =>
    obtain ⟨processes, heq⟩ := setCurrent_eq s pid
    rw [heq]
  | _ => rfl

theorem Changes.back (h : Changes V G s t) (hq : t.get i = some q) :
    ∃ p, s.get i = some p ∧ q.pgrp = p.pgrp ∧ q.sid = p.sid := by
  induction h generalizing q with
  | refl => exact ⟨q, hq, rfl, rfl⟩
  | tail _ h ih =>
    obtain ⟨r, hr, hgrp, hsid, -⟩ := h.changed hq
    obtain ⟨p, hp, hgrp', hsid'⟩ := ih hr
    exact ⟨p, hp, hgrp.trans hgrp', hsid.trans hsid'⟩

theorem Changes.nextPid (h : Changes V G s t) : t.nextPid = s.nextPid := by
  induction h with
  | refl => rfl
  | tail _ h ih => exact h.nextPid.trans ih

namespace State
variable {s t : State} {i : Pid} {p q : Process}

structure Sane (s : State) : Prop where
  fresh : ∀ i p, s.get i = some p → i < s.nextPid
  positive : ∀ i p, s.get i = some p → i ≠ 0
  currentLive : s.CurrentLive

theorem setsidCurrent_eq (s : State) :
    s.setsidCurrent.2 = s ∧ (∀ p, s.currentProcess = some p → p.pgrp = p.pid) ∨
      ∃ p, s.currentProcess = some p ∧ s.get p.pid = some p ∧ p.pgrp ≠ p.pid ∧
        s.setsidCurrent.2 = s.put { p with sid := p.pid, pgrp := p.pid, controllingTty := none } := by
  unfold setsidCurrent currentProcess
  cases hcur : s.current with
  | none => exact .inl ⟨rfl, by simp⟩
  | some pid =>
    cases hp : s.get pid with
    | none => exact .inl ⟨by simp [hp], by simp [hp]⟩
    | some p =>
      by_cases hlead : p.pgrp = p.pid
      · exact .inl ⟨by simp [hp, hlead], by simp [hp, hlead]⟩
      · exact .inr ⟨p, by simp [hp], get_self hp, hlead, by simp [hp, hlead]⟩

/-- `set_pgid` changes nothing, or moves a process that leads no session to the group of its
own name or to one that has a member in its session. -/
theorem setPgid_eq (s : State) (pid pgid : Pid) :
    (s.setPgid pid pgid).2 = s ∨ ∃ p pgrp, s.get p.pid = some p ∧ p.sid ≠ p.pid ∧
      (pgrp = p.pid ∨ ∃ m, s.get m.pid = some m ∧ m.sid = p.sid ∧ m.pgrp = pgrp) ∧
      (s.setPgid pid pgid).2 = s.put { p with pgrp := pgrp } := by
  unfold setPgid
  split
  · exact .inl rfl
  next caller hcur =>
  extract_lets targetPid targetPgid
  clear_value targetPgid
  clear_value targetPid
  split
  · exact .inl rfl
  split
  · exact .inl rfl
  split
  · exact .inl rfl
  next c hc =>
  split
  · exact .inl rfl
  next p hp =>
  split
  · exact .inl rfl
  split
  · exact .inl rfl
  next hsid =>
  split
  · exact .inl rfl
  next hmember =>
  rw [not_or, not_not] at hsid
  refine .inr ⟨p, targetPgid, get_self hp, hsid.2, ?_, rfl⟩
  by_cases hown : targetPgid = targetPid
  · exact .inl (hown.trans (pid_of_get hp).symm)
  have hany : s.processes.entries.any (fun q =>
      q.sid = c.sid && q.pgrp = targetPgid) = true := by
    by_contra hn
    exact hmember ⟨hown, by simpa using hn⟩
  obtain ⟨m, hm, hmsid⟩ := any_eq_true.1 hany
  simp only [Bool.and_eq_true, decide_eq_true_eq] at hmsid
  exact .inr ⟨m, Keyed.get_of_mem hm, hmsid.1.trans hsid.1.symm, hmsid.2⟩

section
variable (hs : s.Sane)
include hs

theorem Sane.get_born (h : Born s t p child) :
    t.get i = if i = s.nextPid then some child else s.get i := by
  have hnew : child.pid ∉ s.processes.entries.map Process.pid := by
    intro hmem
    obtain ⟨q, hq⟩ := mem_pids.1 (show child.pid ∈ s.pids from hmem)
    have hlt := hs.fresh _ q hq
    rw [h.pid] at hlt
    exact Nat.lt_irrefl _ hlt
  have hget : t.get i = (s.processes.push child).get i := by rw [get, h.processes]
  rw [hget, Keyed.get_push hnew, h.pid]
  rfl

theorem Sane.of_changes (h : Changes V G s t) : t.Sane := by
  refine ⟨fun i q hq => ?_, fun i q hq => ?_, currentLive_of_changes hs.currentLive h⟩
  · obtain ⟨p, hp, -⟩ := h.back hq
    rw [h.nextPid]
    exact hs.fresh i p hp
  · obtain ⟨p, hp, -⟩ := h.back hq
    exact hs.positive i p hp

theorem Sane.of_sameTable (h : SameTable s t) : t.Sane := by
  have hget : t.get = s.get := by funext i; rw [get, h.processes]; rfl
  refine ⟨fun i q hq => ?_, fun i q hq => ?_, fun i q hi hq => ?_⟩
  · rw [h.nextPid]
    exact hs.fresh i q (by rw [← hget]; exact hq)
  · exact hs.positive i q (by rw [← hget]; exact hq)
  · exact hs.currentLive i q (by rw [← h.current]; exact hi) (by rw [← hget]; exact hq)

theorem Sane.of_born (h : Born s t p child) : t.Sane := by
  refine ⟨fun i q hq => ?_, fun i q hq => ?_, fun i q hi hq => ?_⟩
  · rw [hs.get_born h] at hq
    rw [h.nextPid]
    split at hq
    · next hi =>
      rw [hi]
      exact lt_succ_self _
    · exact lt_succ_of_lt (hs.fresh i q hq)
  · rw [hs.get_born h] at hq
    split at hq
    · next hi =>
      rw [hi]
      exact Nat.ne_of_gt (zero_lt_of_lt (hs.fresh _ p h.parent))
    · exact hs.positive i q hq
  · rw [hs.get_born h] at hq
    split at hq
    · cases hq
      rw [h.state]
      rfl
    · exact hs.currentLive i q (by rw [← h.current]; exact hi) hq

theorem Sane.put (hp : s.get q.pid = some p) (hstate : q.state = p.state) : (s.put q).Sane := by
  have hback : ∀ i r, (s.put q).get i = some r → ∃ p', s.get i = some p' := by
    intro i r hr
    obtain ⟨p', hp', -⟩ := back_put (R := fun _ _ => True) hr (fun _ => trivial) hp trivial
    exact ⟨p', hp'⟩
  refine ⟨fun i r hr => ?_, fun i r hr => ?_,
    currentLive_put hs.currentLive hp (by rw [hstate]; exact id)⟩
  · obtain ⟨p', hp'⟩ := hback i r hr
    exact hs.fresh i p' hp'
  · obtain ⟨p', hp'⟩ := hback i r hr
    exact hs.positive i p' hp'

end

theorem sane_boot (root : ℕ) (phys : Memory.PhysicalMemory) : (boot root phys).Sane := by
  have hget : ∀ i p, (boot root phys).get i = some p → i = 1 := by
    intro i p hp
    obtain ⟨hmem, hpid⟩ := Keyed.get_eq_some.1 hp
    obtain rfl := mem_singleton.1 hmem
    exact hpid.symm
  refine ⟨fun i p hp => ?_, fun i p hp => ?_, fun _ _ h => absurd h (by simp [boot])⟩
  · rw [hget i p hp]
    exact lt_succ_self 1
  · rw [hget i p hp]
    exact Nat.one_ne_zero

end State

open State

/-- What changes about a process that moves to another group or session. -/
structure Process.Moved (p q : Process) : Prop where
  pid : q.pid = p.pid
  parent : q.parent = p.parent
  state : q.state = p.state
  fds : q.fds = p.fds
  sharedMappings : q.sharedMappings = p.sharedMappings
  signals : p.Steps q

/-- The events that are no sequence of changes: a process is made, or moves to another group. -/
theorem Event.not_tame (he : ¬e.Tame) :
    SameTable s (e.exec s) ∨
      (∃ p child, s.currentProcess = some p ∧ Born s (e.exec s) p child) ∨
      ∃ p q, e.exec s = s.put q ∧ s.get p.pid = some p ∧ Process.Moved p q := by
  have hsame : SameTable s s := ⟨rfl, rfl, rfl⟩
  cases e with
  | fork root =>
    simp only [exec, withCurrent, currentProcess]
    cases s.current with
    | none => exact .inl hsame
    | some pid => exact (fork_born s pid root).imp_right .inl
  | thread entry arg stackTop clearChildTid =>
    simp only [exec, withCurrent, currentProcess]
    cases s.current with
    | none => exact .inl hsame
    | some pid =>
      exact (cloneThread_born s pid entry arg stackTop clearChildTid).imp_right .inl
  | setsid =>
    rcases setsidCurrent_eq s with ⟨heq, -⟩ | ⟨p, -, hp, -, heq⟩
    · rw [exec, heq]
      exact .inl hsame
    · exact .inr (.inr ⟨p, _, heq, hp, rfl, rfl, rfl, rfl, rfl,
        .of_same rfl rfl rfl rfl rfl⟩)
  | setpgid pid pgid =>
    rcases setPgid_eq s pid pgid with heq | ⟨p, pgrp, hp, -, -, heq⟩
    · rw [exec, heq]
      exact .inl hsame
    · exact .inr (.inr ⟨p, _, heq, hp, rfl, rfl, rfl, rfl, rfl,
        .of_same rfl rfl rfl rfl rfl⟩)
  | _ => exact absurd trivial he

theorem Event.changes_tame (he : e.Tame) (hs : s.CurrentLive) :
    Changes Vfs.Steps (fun _ _ => True) s (e.exec s) := by
  exact changes he hs (fun _ _ _ => trivial) fun _ _ _ _ _ _ _ => trivial

theorem State.Sane.exec (hs : s.Sane) (e : Event) : (e.exec s).Sane := by
  by_cases he : e.Tame
  · exact hs.of_changes (changes_tame he hs.currentLive)
  rcases not_tame he with h | ⟨p, child, -, h⟩ | ⟨p, q, heq, hp, hmove⟩
  · exact hs.of_sameTable h
  · exact hs.of_born h
  · rw [heq]
    exact hs.put (by rw [hmove.pid]; exact hp) hmove.state

theorem State.Sane.run (hs : s.Sane) (events : List Event) : (run s events).Sane := by
  induction events generalizing s with
  | nil => exact hs
  | cons e events ih => exact ih (hs.exec e)

end Ristux.Kernel
