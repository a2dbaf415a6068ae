import Ristux.Kernel.Runs

-- The processes of a group are in one session. A group is named after the process that made it,
-- and outlives that process leaving it: `setsid_current` makes a group of that name again.

namespace Ristux.Kernel
open Relation List Option Event

namespace State
variable {s t : State} {i j : Pid} {p q : Process}

/-- Any two processes of one group are in one session. -/
def OneSession (s : State) : Prop :=
  ∀ i j p q, s.get i = some p → s.get j = some q → p.pgrp = q.pgrp → p.sid = q.sid

/-- What every run keeps up about groups and sessions. A group is in the session of the process
it is named after, and the leader of a session leads its group. -/
structure Sessions (s : State) : Prop extends s.Sane where
  oneSession : s.OneSession
  named : ∀ i j p q, s.get i = some p → s.get j = some q → p.pgrp = j → p.sid = q.sid
  leads : ∀ i p, s.get i = some p → p.sid = i → p.pgrp = i
  bounds : ∀ i p, s.get i = some p → p.pgrp < s.nextPid ∧ p.sid < s.nextPid

section
variable (hs : s.Sessions)
include hs

theorem Sessions.of_back (ht : t.Sane) (hnext : t.nextPid = s.nextPid)
    (hback : ∀ i q, t.get i = some q →
      ∃ p, s.get i = some p ∧ q.pgrp = p.pgrp ∧ q.sid = p.sid) : t.Sessions where
  toSane := ht
  oneSession i j p q hp hq hgrp := by
    obtain ⟨p', hp', hpg, hps⟩ := hback i p hp
    obtain ⟨q', hq', hqg, hqs⟩ := hback j q hq
    rw [hps, hqs]
    exact hs.oneSession i j p' q' hp' hq' (by rw [← hpg, ← hqg, hgrp])
  named i j p q hp hq hgrp := by
    obtain ⟨p', hp', hpg, hps⟩ := hback i p hp
    obtain ⟨q', hq', -, hqs⟩ := hback j q hq
    rw [hps, hqs]
    exact hs.named i j p' q' hp' hq' (by rw [← hpg, hgrp])
  leads i p hp hsid := by
    obtain ⟨p', hp', hpg, hps⟩ := hback i p hp
    rw [hpg]
    exact hs.leads i p' hp' (by rw [← hps, hsid])
  bounds i p hp := by
    obtain ⟨p', hp', hpg, hps⟩ := hback i p hp
    rw [hnext, hpg, hps]
    exact hs.bounds i p' hp'

theorem Sessions.of_changes (h : Changes V G s t) : t.Sessions :=
  hs.of_back (hs.toSane.of_changes h) h.nextPid fun _ _ => h.back

theorem Sessions.of_sameTable (h : SameTable s t) : t.Sessions := by
  refine hs.of_back (hs.toSane.of_sameTable h) h.nextPid fun i q hq => ⟨q, ?_, rfl, rfl⟩
  rw [State.get, ← h.processes]
  exact hq

theorem Sessions.of_born (h : Born s t p child) : t.Sessions := by
  have hp := h.parent
  -- a process of `t` has the group and session of one of `s`, which is not the new pid
  have hback : ∀ i q, t.get i = some q → ∃ k q', s.get k = some q' ∧ q.pgrp = q'.pgrp ∧
      q.sid = q'.sid ∧ (i = k ∨ i = s.nextPid) := by
    intro i q hq
    rw [hs.get_born h] at hq
    split at hq
    · next hi =>
      cases hq
      exact ⟨p.pid, p, hp, h.pgrp, h.sid, .inr hi⟩
    · exact ⟨i, q, hq, rfl, rfl, .inl rfl⟩
  refine ⟨hs.toSane.of_born h, fun i j q r hq hr hgrp => ?_, fun i j q r hq hr hgrp => ?_,
    fun i q hq hsid => ?_, fun i q hq => ?_⟩
  · obtain ⟨k, q', hq', hqg, hqs, -⟩ := hback i q hq
    obtain ⟨l, r', hr', hrg, hrs, -⟩ := hback j r hr
    rw [hqs, hrs]
    exact hs.oneSession k l q' r' hq' hr' (by rw [← hqg, ← hrg, hgrp])
  · obtain ⟨k, q', hq', hqg, hqs, -⟩ := hback i q hq
    have hj : j ≠ s.nextPid := by
      rw [← hgrp, hqg]
      exact Nat.ne_of_lt (hs.bounds k q' hq').1
    rw [hs.get_born h, if_neg hj] at hr
    rw [hqs]
    exact hs.named k j q' r hq' hr (by rw [← hqg, hgrp])
  · obtain ⟨k, q', hq', hqg, hqs, hik⟩ := hback i q hq
    have hi : i = k := hik.resolve_right (by
      rw [← hsid, hqs]
      exact Nat.ne_of_lt (hs.bounds k q' hq').2)
    rw [hqg, hi]
    exact hs.leads k q' hq' (by rw [← hqs, hsid, hi])
  · obtain ⟨k, q', hq', hqg, hqs, -⟩ := hback i q hq
    obtain ⟨hgrp, hsid⟩ := hs.bounds k q' hq'
    rw [h.nextPid, hqg, hqs]
    exact ⟨Nat.lt_succ_of_lt hgrp, Nat.lt_succ_of_lt hsid⟩

/-- `p` moves to the group `pgrp` of the session `sid`, which the other processes of that group
are in. -/
theorem Sessions.put (hp : s.get p.pid = some p)
    (hq : q.pid = p.pid ∧ q.pgrp = pgrp ∧ q.sid = sid) (hstate : q.state = p.state)
    (hgroup : ∀ i r, s.get i = some r → i ≠ p.pid → r.pgrp = pgrp → r.sid = sid)
    (hnamed : ∀ r, s.get pgrp = some r → pgrp ≠ p.pid → sid = r.sid)
    (hown : ∀ i r, s.get i = some r → i ≠ p.pid → r.pgrp = p.pid → r.sid = sid)
    (hleads : sid = p.pid → pgrp = p.pid) (hfresh : pgrp < s.nextPid ∧ sid < s.nextPid) :
    (s.put q).Sessions := by
  obtain ⟨hpid, rfl, rfl⟩ := hq
  have hget : ∀ i r, (s.put q).get i = some r → i = p.pid ∧ r = q ∨ i ≠ p.pid ∧ s.get i = some r := by
    intro i r hr
    rw [get_put, hpid] at hr
    split at hr
    · next hi =>
      rw [hi, hp] at hr
      exact .inl ⟨hi, (some.inj hr).symm⟩
    · next hi => exact .inr ⟨hi, hr⟩
  have hsane : (s.put q).Sane := hs.toSane.put (by rw [hpid]; exact hp) hstate
  refine ⟨hsane, fun i j r u hr hu hgrp => ?_, fun i j r u hr hu hgrp => ?_,
    fun i r hr hsid => ?_, fun i r hr => ?_⟩
  · rcases hget i r hr with ⟨-, hrq⟩ | ⟨hi, hr⟩ <;>
      rcases hget j u hu with ⟨-, huq⟩ | ⟨hj, hu⟩
    · rw [hrq, huq]
    · rw [hrq] at hgrp ⊢
      exact (hgroup j u hu hj hgrp.symm).symm
    · rw [huq] at hgrp ⊢
      exact hgroup i r hr hi hgrp
    · exact hs.oneSession i j r u hr hu hgrp
  · rcases hget i r hr with ⟨-, hrq⟩ | ⟨hi, hr⟩ <;>
      rcases hget j u hu with ⟨hj, huq⟩ | ⟨hj, hu⟩
    · rw [hrq, huq]
    · rw [hrq] at hgrp ⊢
      subst hgrp
      exact hnamed u hu hj
    · rw [huq]
      exact hown i r hr hi (by rw [hgrp, hj])
    · exact hs.named i j r u hr hu hgrp
  · rcases hget i r hr with ⟨rfl, rfl⟩ | ⟨-, hr⟩
    · exact hleads hsid
    · exact hs.leads i r hr hsid
  · rcases hget i r hr with ⟨rfl, rfl⟩ | ⟨-, hr⟩
    · exact hfresh
    · exact hs.bounds i r hr

theorem Sessions.setPgid (pid pgid : Pid) : (s.setPgid pid pgid).2.Sessions := by
  rcases setPgid_eq s pid pgid with heq | ⟨p, pgrp, hp, hlead, hgroup, heq⟩
  · rw [heq]
    exact hs
  rw [heq]
  have hsid := (hs.bounds _ p hp).2
  have hown : ∀ i r, s.get i = some r → i ≠ p.pid → r.pgrp = p.pid → r.sid = p.sid :=
    fun i r hr _ hgrp => hs.named i _ r p hr hp hgrp
  rcases hgroup with rfl | ⟨m, hm, hmsid, rfl⟩
  · exact hs.put hp ⟨rfl, rfl, rfl⟩ rfl hown (fun r _ hne => absurd rfl hne) hown
      (fun h => absurd h hlead) ⟨hs.fresh _ p hp, hsid⟩
  refine hs.put hp ⟨rfl, rfl, rfl⟩ rfl (fun i r hr _ hgrp => ?_) (fun r hr _ => ?_) hown
    (fun h => absurd h hlead) ⟨(hs.bounds _ m hm).1, hsid⟩
  · rw [← hmsid]
    exact hs.oneSession i _ r m hr hm hgrp
  · rw [← hmsid]
    exact hs.named _ _ m r hm hr rfl

end

/-- The caller of `setsid` may make a session: it leads no group yet, and if so nobody is in the
group of its name. -/
def SetsidAlone (s : State) : Prop :=
  ∀ p, s.currentProcess = some p → p.pgrp ≠ p.pid → ∀ i q, s.get i = some q → q.pgrp ≠ p.pid

theorem Sessions.setsidCurrent (hs : s.Sessions) (h : s.SetsidAlone) :
    s.setsidCurrent.2.Sessions := by
  rcases setsidCurrent_eq s with ⟨heq, -⟩ | ⟨p, hcur, hp, hlead, heq⟩
  · rw [heq]
    exact hs
  have halone := h p hcur hlead
  have hfresh := hs.fresh _ p hp
  rw [heq]
  exact hs.put hp ⟨rfl, rfl, rfl⟩ rfl (fun i r hr _ hgrp => absurd hgrp (halone i r hr))
    (fun r _ hne => absurd rfl hne) (fun i r hr _ hgrp => absurd hgrp (halone i r hr))
    (fun _ => rfl) ⟨hfresh, hfresh⟩

/-- A `setsid` that finds another process in the group of the caller's name puts that process
and the caller in one group and two sessions. -/
theorem Sessions.setsidAlone_of_oneSession (hs : s.Sessions)
    (h : s.setsidCurrent.2.OneSession) : s.SetsidAlone := by
  intro p hcur hlead i q hq hgrp
  rcases setsidCurrent_eq s with ⟨-, hle⟩ | ⟨p', hcur', hp, -, heq⟩
  · exact hlead (hle p hcur)
  obtain rfl : p' = p := some.inj (hcur'.symm.trans hcur)
  have hne : i ≠ p'.pid := by
    rintro rfl
    cases hq.symm.trans hp
    exact hlead hgrp
  have hold : q.sid = p'.sid := hs.named i _ q p' hq hp hgrp
  have hnew : q.sid = p'.pid := by
    rw [heq] at h
    refine h i p'.pid q _ ?_ (get_put_self (p := { p' with
      sid := p'.pid, pgrp := p'.pid, controllingTty := none }) hp) hgrp
    rw [get_put_of_ne (p := { p' with sid := p'.pid, pgrp := p'.pid, controllingTty := none }) hne]
    exact hq
  exact hlead (hs.leads _ p' hp (hold.symm.trans hnew))

end State

open State

/-- What an event has to meet for the groups to stay inside their sessions. -/
def Event.KeepsSessions (s : State) : Event → Prop
  | .setsid => s.SetsidAlone
  | _ => True

theorem sessions_boot (root : ℕ) (phys : Memory.PhysicalMemory) : (boot root phys).Sessions := by
  have hget : ∀ i p, (boot root phys).get i = some p → i = 1 ∧ p.pgrp = 1 ∧ p.sid = 1 := by
    intro i p hp
    obtain ⟨hmem, hpid⟩ := Lib.Keyed.get_eq_some.1 hp
    obtain rfl := mem_singleton.1 hmem
    exact ⟨hpid.symm, rfl, rfl⟩
  have hnext : (boot root phys).nextPid = 2 := rfl
  refine ⟨sane_boot root phys, fun i j p q hp hq _ => ?_, fun i j p q hp hq _ => ?_, fun i p hp _ => ?_,
    fun i p hp => ?_⟩
  · rw [(hget i p hp).2.2, (hget j q hq).2.2]
  · rw [(hget i p hp).2.2, (hget j q hq).2.2]
  · rw [(hget i p hp).1, (hget i p hp).2.1]
  · obtain ⟨-, hgrp, hsid⟩ := hget i p hp
    rw [hgrp, hsid, hnext]
    decide

theorem State.Sessions.exec {e : Event} (hs : s.Sessions) (h : e.KeepsSessions s) :
    (e.exec s).Sessions := by
  by_cases he : e.Tame
  · exact hs.of_changes (changes_tame he hs.currentLive)
  cases e with
  | fork root =>
    simp only [Event.exec, withCurrent]
    cases s.current with
    | none => exact hs
    | some pid =>
      rcases fork_born s pid root with hsame | ⟨p, child, -, hb⟩
      · exact hs.of_sameTable hsame
      · exact hs.of_born hb
  | thread entry arg stackTop clearChildTid =>
    simp only [Event.exec, withCurrent]
    cases s.current with
    | none => exact hs
    | some pid =>
      rcases cloneThread_born s pid entry arg stackTop clearChildTid with hsame | ⟨p, child, -, hb⟩
      · exact hs.of_sameTable hsame
      · exact hs.of_born hb
  | setsid => exact hs.setsidCurrent h
  | setpgid pid pgid => exact hs.setPgid pid pgid
  | _ => exact absurd trivial he

/-- Process groups stay inside one session in every run in which a process makes a session only
when no other process is in the group of its name, and this is what each event has to meet. -/
theorem run_oneSession (root : ℕ) (phys : Memory.PhysicalMemory) (events : List Event)
    (h : Meets (fun s e => e.KeepsSessions s) (boot root phys) events) :
    (run (boot root phys) events).OneSession ∧
      ∀ e : Event, (e.exec (run (boot root phys) events)).OneSession ↔
        e.KeepsSessions (run (boot root phys) events) := by
  have hrun : (run (boot root phys) events).Sessions :=
    run_induct (fun _ _ hs hc => hs.exec hc) (sessions_boot root phys) h
  refine ⟨hrun.oneSession, fun e => ⟨fun hone => ?_, fun hk => (hrun.exec hk).oneSession⟩⟩
  cases e with
  | setsid => exact hrun.setsidAlone_of_oneSession hone
  | _ => exact trivial

/-- A child of init makes a session of its own. -/
theorem run_oneSession_setsid :
    (run booted [.enter 1, .fork 0, .enter 2, .setsid]).OneSession := by
  refine (run_oneSession 0 _ [.enter 1, .fork 0, .enter 2, .setsid]
    ⟨trivial, trivial, trivial, ?_, trivial⟩).1
  have hcur : (run booted [.enter 1, .fork 0, .enter 2]).currentProcess.map
      Process.pid = some 2 := by decide
  have hall : (run booted [.enter 1, .fork 0, .enter 2]).processes.entries.all
      (fun q => q.pgrp ≠ 2) = true := by decide
  intro p hp _ i q hq
  obtain ⟨p', hp', hpid⟩ := map_eq_some_iff.1 hcur
  obtain rfl : p' = p := some.inj (hp'.symm.trans hp)
  rw [hpid]
  simpa using all_eq_true.1 hall q (Lib.Keyed.mem_of_get hq)

/-- Process 2 makes the group 2, its child 3 stays in it, and 2 goes back to the group of init
before it makes a session. -/
def regroup : List Event :=
  [.enter 1, .fork 0, .enter 2, .setpgid 0 0, .fork 0, .setpgid 0 1, .setsid]

theorem regroup_splits_group : ¬(run booted regroup).OneSession := by
  intro h
  have h2 : ((run booted regroup).get 2).map (fun p => (p.pgrp, p.sid)) = some (2, 2) := by
    decide
  have h3 : ((run booted regroup).get 3).map (fun p => (p.pgrp, p.sid)) = some (2, 1) := by
    decide
  obtain ⟨p, hp, heq⟩ := map_eq_some_iff.1 h2
  obtain ⟨q, hq, heq'⟩ := map_eq_some_iff.1 h3
  obtain ⟨hpg, hps⟩ := Prod.mk.inj heq
  obtain ⟨hqg, hqs⟩ := Prod.mk.inj heq'
  have := h 2 3 p q hp hq (by rw [hpg, hqg])
  rw [hps, hqs] at this
  exact absurd this (by decide)

end Ristux.Kernel
