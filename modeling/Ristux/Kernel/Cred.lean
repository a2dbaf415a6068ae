import Ristux.Kernel.Jobs

-- The system calls that change the user and group ids of the running process.

namespace Ristux.Kernel
open List Credentials

namespace Credentials

variable (c : Credentials)

def setUid (uid : ℕ) : Option Credentials :=
  if c.isSuperuser then some { c with uid := uid, euid := uid, suid := uid }
  else if uid = c.uid ∨ uid = c.suid then some { c with euid := uid }
  else none

def setGid (gid : ℕ) : Option Credentials :=
  if c.isSuperuser then
    some { c with
      gid := gid
      egid := gid
      sgid := gid
      groups := Function.update c.groups 0 gid
      groupCount := 1 }
  else if gid = c.gid ∨ gid = c.sgid then some { c with egid := gid }
  else none

/-- An id that is left alone, or one the caller may take. -/
def allowedUid (uid : Option ℕ) : Bool :=
  uid.all fun uid => c.isSuperuser || uid = c.uid || uid = c.euid || uid = c.suid

def setResuid (ruid euid suid : Option ℕ) : Option Credentials :=
  if c.allowedUid ruid && c.allowedUid euid && c.allowedUid suid then
    some { c with uid := ruid.getD c.uid, euid := euid.getD c.euid, suid := suid.getD c.suid }
  else none

def allowedGid (gid : Option ℕ) : Bool :=
  gid.all fun gid => c.isSuperuser || gid = c.gid || gid = c.egid || gid = c.sgid

def setResgid (rgid egid sgid : Option ℕ) : Option Credentials :=
  if c.allowedGid rgid && c.allowedGid egid && c.allowedGid sgid then
    some { c with gid := rgid.getD c.gid, egid := egid.getD c.egid, sgid := sgid.getD c.sgid }
  else none

def setGroups (groups : List ℕ) : Option Credentials :=
  if !c.isSuperuser || 8 < groups.length then none
  else some { c with groups := fun i => groups.getD i 0, groupCount := groups.length }

end Credentials

def parseIdArg (id : ℕ) : Except Errno ℕ := if id < 2 ^ 32 then .ok id else .error .einval

def parseResIdArg (id : ℕ) : Except Errno (Option ℕ) :=
  if id = 2 ^ 64 - 1 ∨ id = 2 ^ 32 - 1 then .ok none
  else match parseIdArg id with
    | .ok id => .ok (some id)
    | .error e => .error e

namespace State

variable (s : State)

/-- A change of the credentials of the running process, refused with EACCES. -/
def changeCredentials (f : Credentials → Option Credentials) :
    Except Errno ℕ × State :=
  match s.currentProcess with
  | none => (.error .eacces, s)
  | some p =>
    match f p.credentials with
    | none => (.error .eacces, s)
    | some c => (.ok 0, s.put { p with credentials := c })

def linuxSetuid (uid : ℕ) : Except Errno ℕ × State :=
  match parseIdArg uid with
  | .error e => (.error e, s)
  | .ok uid => s.changeCredentials fun c => c.setUid uid

def linuxSetgid (gid : ℕ) : Except Errno ℕ × State :=
  match parseIdArg gid with
  | .error e => (.error e, s)
  | .ok gid => s.changeCredentials fun c => c.setGid gid

/-- The three arguments of `setresuid` and `setresgid`. -/
def parseResIdArgs (a b c : ℕ) : Except Errno (Option ℕ × Option ℕ × Option ℕ) := do
  let a ← parseResIdArg a
  let b ← parseResIdArg b
  let c ← parseResIdArg c
  pure (a, b, c)

def linuxSetresuid (ruid euid suid : ℕ) : Except Errno ℕ × State :=
  match parseResIdArgs ruid euid suid with
  | .error e => (.error e, s)
  | .ok (ruid, euid, suid) => s.changeCredentials fun c => c.setResuid ruid euid suid

def linuxSetresgid (rgid egid sgid : ℕ) : Except Errno ℕ × State :=
  match parseResIdArgs rgid egid sgid with
  | .error e => (.error e, s)
  | .ok (rgid, egid, sgid) => s.changeCredentials fun c => c.setResgid rgid egid sgid

/-- `groups` is the array at the list pointer, which is not read for a size of zero. -/
def linuxSetgroups (size : ℕ) (groups : Option (Fin size → ℕ)) :
    Except Errno ℕ × State :=
  if 8 < size then (.error .einval, s)
  else if size = 0 then s.changeCredentials fun c => c.setGroups []
  else match groups with
    | none => (.error .efault, s)
    | some groups => s.changeCredentials fun c => c.setGroups (List.ofFn groups)

end State

/-- The calls that change credentials. -/
inductive CredCall where
  | setuid (uid : ℕ)
  | setgid (gid : ℕ)
  | setresuid (ruid euid suid : ℕ)
  | setresgid (rgid egid sgid : ℕ)
  | setgroups (size : ℕ) (groups : Option (Fin size → ℕ))

def CredCall.exec (s : State) : CredCall → State
  | setuid uid => (s.linuxSetuid uid).2
  | setgid gid => (s.linuxSetgid gid).2
  | setresuid ruid euid suid => (s.linuxSetresuid ruid euid suid).2
  | setresgid rgid egid sgid => (s.linuxSetresgid rgid egid sgid).2
  | setgroups size groups => (s.linuxSetgroups size groups).2

/-- A call of the running process, or another process that starts to run. -/
inductive CredEvent where
  | call (c : CredCall)
  | switch (pid : Pid)

def CredEvent.exec (s : State) : CredEvent → State
  | call c => c.exec s
  | switch pid => s.setCurrent pid

namespace Credentials

/-- The ids of `c` are among those of `c₀`, and the supplementary groups are the same. -/
structure Within (c₀ c : Credentials) : Prop where
  uids : ∀ i ∈ [c.uid, c.euid, c.suid], i ∈ [c₀.uid, c₀.euid, c₀.suid]
  gids : ∀ i ∈ [c.gid, c.egid, c.sgid], i ∈ [c₀.gid, c₀.egid, c₀.sgid]
  groups : c.groups = c₀.groups ∧ c.groupCount = c₀.groupCount

/-- None of the three user ids is root's. -/
def Unprivileged (c : Credentials) : Prop := c.uid ≠ 0 ∧ c.euid ≠ 0 ∧ c.suid ≠ 0

variable {c₀ c c' : Credentials}

theorem Within.refl (c : Credentials) : c.Within c := ⟨fun _ h => h, fun _ h => h, rfl, rfl⟩

theorem Within.isSuperuser (hc : c₀.Unprivileged) (h : c₀.Within c) : c.isSuperuser = false := by
  obtain ⟨hu, he, hs⟩ := hc
  have hmem := h.uids c.euid (by simp)
  simp only [mem_cons, not_mem_nil, or_false] at hmem
  simp only [Credentials.isSuperuser, decide_eq_false_iff_not]
  rcases hmem with hmem | hmem | hmem <;> omega

/-- A change of `c` that draws its ids from `c` stays within what `c` was within. -/
theorem Within.draw (h : c₀.Within c) (hd : c.Within c') : c₀.Within c' where
  uids i hi := h.uids i (hd.uids i hi)
  gids i hi := h.gids i (hd.gids i hi)
  groups := ⟨hd.groups.1.trans h.groups.1, hd.groups.2.trans h.groups.2⟩

/-! Without root's privilege every call draws the new ids from the old ones. -/

variable (hc : c.isSuperuser = false)
include hc

theorem within_setUid {uid : ℕ} (h : c.setUid uid = some c') : c.Within c' := by
  simp only [setUid, hc, Bool.false_eq_true, if_false] at h
  split at h
  · next hu =>
    cases h
    refine ⟨?_, fun _ h => h, rfl, rfl⟩
    rcases hu with hu | hu <;> simp [hu]
  · exact absurd h (by simp)

theorem within_setGid {gid : ℕ} (h : c.setGid gid = some c') : c.Within c' := by
  simp only [setGid, hc, Bool.false_eq_true, if_false] at h
  split at h
  · next hg =>
    cases h
    refine ⟨fun _ h => h, ?_, rfl, rfl⟩
    rcases hg with hg | hg <;> simp [hg]
  · exact absurd h (by simp)

theorem mem_of_allowedUid {uid : Option ℕ}
    (h : c.allowedUid uid = true) (hi : i ∈ [c.uid, c.euid, c.suid]) :
    uid.getD i ∈ [c.uid, c.euid, c.suid] := by
  cases uid with
  | none => exact hi
  | some u => simpa [allowedUid, hc, or_assoc] using h

theorem mem_of_allowedGid {gid : Option ℕ}
    (h : c.allowedGid gid = true) (hi : i ∈ [c.gid, c.egid, c.sgid]) :
    gid.getD i ∈ [c.gid, c.egid, c.sgid] := by
  cases gid with
  | none => exact hi
  | some g => simpa [allowedGid, hc, or_assoc] using h

theorem within_setResuid (h : c.setResuid r e u = some c') : c.Within c' := by
  unfold setResuid at h
  split at h
  · next hall =>
    obtain ⟨⟨hr, he⟩, hu⟩ : (c.allowedUid r = true ∧ c.allowedUid e = true) ∧
      c.allowedUid u = true := by simpa using hall
    cases h
    refine ⟨fun i hi => ?_, fun _ h => h, rfl, rfl⟩
    simp only [mem_cons, not_mem_nil, or_false] at hi
    rcases hi with rfl | rfl | rfl
    · exact mem_of_allowedUid hc hr (by simp)
    · exact mem_of_allowedUid hc he (by simp)
    · exact mem_of_allowedUid hc hu (by simp)
  · exact absurd h (by simp)

theorem within_setResgid (h : c.setResgid r e g = some c') : c.Within c' := by
  unfold setResgid at h
  split at h
  · next hall =>
    obtain ⟨⟨hr, he⟩, hg⟩ : (c.allowedGid r = true ∧ c.allowedGid e = true) ∧
      c.allowedGid g = true := by simpa using hall
    cases h
    refine ⟨fun _ h => h, fun i hi => ?_, rfl, rfl⟩
    simp only [mem_cons, not_mem_nil, or_false] at hi
    rcases hi with rfl | rfl | rfl
    · exact mem_of_allowedGid hc hr (by simp)
    · exact mem_of_allowedGid hc he (by simp)
    · exact mem_of_allowedGid hc hg (by simp)
  · exact absurd h (by simp)

theorem setGroups_eq_none {groups : List ℕ} : c.setGroups groups = none := by
  simp [setGroups, hc]

end Credentials

namespace State

/-- The process `pid` is there, with credentials within `c₀`. -/
def CredWithin (c₀ : Credentials) (pid : Pid) (s : State) : Prop :=
  ∃ p, s.get pid = some p ∧ c₀.Within p.credentials

variable {s : State} {pid : Pid}

/-- A call changes the credentials of the running process by one of the functions above, or
nothing. -/
theorem credCall_exec_eq (c : CredCall) (s : State) :
    c.exec s = s ∨ ∃ f : Credentials → Option Credentials, c.exec s = (s.changeCredentials f).2 ∧
        ∀ c c', c.isSuperuser = false → f c = some c' → c.Within c' := by
  cases c with
  | setuid uid =>
    simp only [CredCall.exec, linuxSetuid]
    cases parseIdArg uid with
    | error e => exact .inl rfl
    | ok uid => exact .inr ⟨_, rfl, fun _ _ hc => within_setUid hc⟩
  | setgid gid =>
    simp only [CredCall.exec, linuxSetgid]
    cases parseIdArg gid with
    | error e => exact .inl rfl
    | ok gid => exact .inr ⟨_, rfl, fun _ _ hc => within_setGid hc⟩
  | setresuid ruid euid suid =>
    simp only [CredCall.exec, linuxSetresuid]
    cases parseResIdArgs ruid euid suid with
    | error e => exact .inl rfl
    | ok ids => exact .inr ⟨_, rfl, fun _ _ hc => within_setResuid hc⟩
  | setresgid rgid egid sgid =>
    simp only [CredCall.exec, linuxSetresgid]
    cases parseResIdArgs rgid egid sgid with
    | error e => exact .inl rfl
    | ok ids => exact .inr ⟨_, rfl, fun _ _ hc => within_setResgid hc⟩
  | setgroups size groups =>
    have hgroups (l : List ℕ) (c c' : Credentials) (hc : c.isSuperuser = false)
        (h : c.setGroups l = some c') : c.Within c' := by
      simp [setGroups_eq_none hc] at h
    simp only [CredCall.exec, linuxSetgroups]
    split
    · exact .inl rfl
    split
    · exact .inr ⟨_, rfl, hgroups []⟩
    cases groups with
    | none => exact .inl rfl
    | some groups => exact .inr ⟨_, rfl, hgroups _⟩

theorem credWithin_changeCredentials
    (hf : ∀ c c', c₀.Within c → f c = some c' → c.Within c') (h : s.CredWithin c₀ pid) :
    (s.changeCredentials f).2.CredWithin c₀ pid := by
  obtain ⟨p, hp, hw⟩ := h
  cases hcur : s.currentProcess with
  | none =>
    simp only [changeCredentials, hcur]
    exact ⟨p, hp, hw⟩
  | some q =>
    cases hfq : f q.credentials with
    | none =>
      simp only [changeCredentials, hcur, hfq]
      exact ⟨p, hp, hw⟩
    | some c =>
      simp only [changeCredentials, hcur, hfq]
      obtain ⟨i, -, hq⟩ := Option.bind_eq_some_iff.1 hcur
      by_cases hpid : pid = q.pid
      · have hqp : q = p := by
          rw [← pid_of_get hq, ← hpid, hp] at hq
          exact (Option.some.inj hq).symm
        subst hqp
        subst hpid
        exact ⟨_, get_put_self hp, hw.draw (hf _ _ hw hfq)⟩
      · exact ⟨p, (get_put_of_ne (p := { q with credentials := c }) hpid).trans hp, hw⟩

/-- No single call takes a process outside the ids it started from. -/
theorem credWithin_exec (hc : c₀.Unprivileged) (h : s.CredWithin c₀ pid) (e : CredEvent) :
    (e.exec s).CredWithin c₀ pid := by
  cases e with
  | call c =>
    rw [CredEvent.exec]
    rcases credCall_exec_eq c s with heq | ⟨f, heq, hf⟩
    · rw [heq]
      exact h
    · rw [heq]
      exact credWithin_changeCredentials (fun _ _ hw => hf _ _ (hw.isSuperuser hc)) h
  | switch i =>
    obtain ⟨p, hp, hw⟩ := h
    refine ⟨{ p with state := runningState i p }, ?_, hw⟩
    rw [CredEvent.exec, get_setCurrent, hp, Option.map_some]

/-- An unprivileged process keeps to the ids and groups it has, whatever the processes of the
machine call. -/
theorem credentials_within_of_run {p : Process} (events : List CredEvent)
    (hp : s.get pid = some p) (hc : p.credentials.Unprivileged) :
    ∃ q, (events.foldl CredEvent.exec s).get pid = some q ∧ p.credentials.Within q.credentials := by
  have hrun : ∀ s : State, s.CredWithin p.credentials pid →
      (events.foldl CredEvent.exec s).CredWithin p.credentials pid := by
    induction events with
    | nil => exact fun s h => h
    | cons e events ih => exact fun s h => ih _ (credWithin_exec hc h e)
  exact hrun s ⟨p, hp, .refl _⟩

/-- A machine with one process, of user 1000. -/
def userMachine : State :=
  { booted with
    processes := ⟨[Process.newUser 1 none 0 ⟨1000, 100, 1001, 101, 1002, 102, fun _ => 7, 1⟩],
      nodup_singleton _⟩ }

theorem credentials_within_of_run_userMachine :
    ∃ q, (([.switch 1, .call (.setuid 1002), .call (.setresuid 1001 1000 0), .call (.setgid 0),
        .call (.setuid 0)] : List CredEvent).foldl CredEvent.exec userMachine).get 1 = some q ∧
      (⟨1000, 100, 1001, 101, 1002, 102, fun _ => 7, 1⟩ : Credentials).Within q.credentials :=
  credentials_within_of_run _ (p := Process.newUser 1 none 0 _) rfl
    ⟨by decide, by decide, by decide⟩

end State
end Ristux.Kernel
