import Ristux.Kernel.Waiters

-- What each call does to the open files and to the processes that wait for them: it closes
-- nothing but what is listed, or wakes everyone. The open files are counted right in every state
-- the kernel reaches.

namespace Ristux.Kernel
open Relation State List Option Process Vfs Event

/-- What holds of the table and the open files in every state. -/
structure State.Filed (s : State) : Prop extends Sane s where
  counted : s.vfs.Counted
  bare : s.Bare

namespace State
theorem enqueue_vfs (s : State) (pid : Pid) : (s.enqueue pid).vfs = s.vfs := by
  unfold enqueue
  split <;> rfl

theorem fork_vfs (s : State) (pid : Pid) (root : ℕ) :
    s.vfs.Steps (s.fork pid root).2.vfs ∧ Leaves [] s.vfs (s.fork pid root).2.vfs := by
  unfold fork
  split
  · exact ⟨.refl, .refl _ _⟩
  next p _ =>
  split
  · exact ⟨.refl, .refl _ _⟩
  have hsteps := steps_duplicateFdEntries p.fds s.vfs []
  obtain ⟨hleaves, hfree⟩ := leaves_duplicateFdEntries p.fds s.vfs []
    (.refl _ _) (by simp)
  split
  · next v hd =>
    rw [hd] at hsteps hleaves
    exact ⟨hsteps, hleaves⟩
  next fds v hd =>
  rw [hd] at hsteps hleaves hfree
  have hsteps' := hsteps.trans (steps_duplicateSharedMappings p.sharedMappings v [])
  have hleaves' := leaves_duplicateSharedMappings p.sharedMappings v []
    hleaves (by simp)
  split
  · next w hm =>
    rw [hm] at hsteps' hleaves'
    exact ⟨hsteps'.trans (steps_closeAll w _),
      hleaves'.closeAll (forall_mem_map.2 fun e he => .inr (hfree fds rfl e he))⟩
  next w hm =>
  rw [hm] at hsteps' hleaves'
  rw [enqueue_vfs]
  exact ⟨hsteps', hleaves'⟩

theorem cloneThread_vfs (s : State) (pid : Pid) (entry arg stackTop clearChildTid : ℕ) :
    s.vfs.Steps (s.cloneThread pid entry arg stackTop clearChildTid).2.vfs ∧
      Leaves [] s.vfs (s.cloneThread pid entry arg stackTop clearChildTid).2.vfs := by
  unfold cloneThread
  split
  · exact ⟨.refl, .refl _ _⟩
  next p _ =>
  have hsteps := steps_duplicateFdEntries p.fds s.vfs []
  obtain ⟨hleaves, hfree⟩ := leaves_duplicateFdEntries p.fds s.vfs []
    (.refl _ _) (by simp)
  split
  · next v hd =>
    rw [hd] at hsteps hleaves
    exact ⟨hsteps, hleaves⟩
  next fds v hd =>
  rw [hd] at hsteps hleaves hfree
  split
  · exact ⟨hsteps.trans (steps_closeAll v _),
      hleaves.closeAll (forall_mem_map.2 fun e he => .inr (hfree fds rfl e he))⟩
  · rw [enqueue_vfs]
    exact ⟨hsteps, hleaves⟩

theorem setsidCurrent_vfs (s : State) : s.setsidCurrent.2.vfs = s.vfs := by
  rcases setsidCurrent_eq s with ⟨heq, -⟩ | ⟨p, -, -, -, heq⟩
  · rw [heq]
  · rw [heq]
    rfl

theorem setPgid_vfs (s : State) (pid pgid : Pid) : (s.setPgid pid pgid).2.vfs = s.vfs := by
  rcases setPgid_eq s pid pgid with heq | ⟨p, _, -, -, -, heq⟩
  · rw [heq]
  · rw [heq]
    rfl

end State

variable {s : State}
  {v : Vfs}

/-- The events that make or move a process close nothing that was open before. -/
theorem Event.not_tame_vfs {e : Event} (he : ¬e.Tame) :
    s.vfs.Steps (e.exec s).vfs ∧ Leaves [] s.vfs (e.exec s).vfs := by
  have hsame : ∀ t : State, t.vfs = s.vfs → s.vfs.Steps t.vfs ∧ Leaves [] s.vfs t.vfs :=
    fun t h => by rw [h]; exact ⟨.refl, .refl _ _⟩
  cases e with
  | fork root =>
    simp only [exec, withCurrent]
    cases s.current with
    | none => exact hsame s rfl
    | some pid => exact fork_vfs s pid root
  | thread entry arg stackTop clearChildTid =>
    simp only [exec, withCurrent]
    cases s.current with
    | none => exact hsame s rfl
    | some pid => exact cloneThread_vfs s pid entry arg stackTop clearChildTid
  | setsid => exact hsame _ (setsidCurrent_vfs s)
  | setpgid pid pgid => exact hsame _ (setPgid_vfs s pid pgid)
  | _ => exact absurd trivial he

theorem State.Bare.exec (hb : s.Bare) (hs : s.Sane) (e : Event) : (e.exec s).Bare := by
  by_cases he : e.Tame
  · exact hb.changes (changes_tame he hs.currentLive)
  rcases not_tame he with h | ⟨p, child, -, h⟩ | ⟨p, q, heq, hp, hmove⟩
  · intro m q hq
    rw [get, h.processes] at hq
    exact hb m q hq
  · intro m q hq hz
    rw [hs.get_born h] at hq
    split at hq
    · cases hq
      rw [h.state] at hz
      cases hz
    · exact hb m q hq hz
  · rw [heq]
    refine hb.put (by rw [hmove.pid]; exact hp) fun hz => ?_
    rw [hmove.state] at hz
    exact ⟨hz, hmove.fds, hmove.sharedMappings⟩

theorem State.Filed.exec (hs : s.Filed) (e : Event) : (e.exec s).Filed := by
  refine ⟨hs.toSane.exec e, ?_, hs.bare.exec hs.toSane e⟩
  by_cases he : e.Tame
  · exact hs.counted.steps (changes_tame he hs.currentLive).vfsSteps
  · exact hs.counted.steps (not_tame_vfs he).1

theorem State.Filed.run (hs : s.Filed) (events : List Event) : (run s events).Filed := by
  induction events generalizing s with
  | nil => exact hs
  | cons e events ih => exact ih (hs.exec e)

theorem State.filed_boot (root : ℕ) (phys : Memory.PhysicalMemory) : (boot root phys).Filed := by
  refine ⟨sane_boot root phys, fun h hne => ?_, fun m p hp hz => ?_⟩
  · cases h with
    | other => exact absurd rfl hne
    | pipeRead k => simp [recorded, boot]
    | pipeWrite k => simp [recorded, boot]
  · obtain ⟨hmem, -⟩ := Lib.Keyed.get_eq_some.1 hp
    obtain rfl := mem_singleton.1 hmem
    cases hz

namespace State
variable {s t u : State} {pid : Pid} {p q : Process}

/-- What a call that prepares user memory leaves alone. -/
structure SameFilesAndTable (s t : State) : Prop where
  processes : t.processes = s.processes
  vfs : t.vfs = s.vfs

theorem sameFilesAndTable_writeUser (h : s.writeUser addr bytes = (ok, t)) :
    SameFilesAndTable s t := by
  obtain ⟨spaces, phys, heq⟩ := s.writeUser_eq addr bytes
  rw [h] at heq
  obtain rfl : t = _ := heq
  exact ⟨rfl, rfl⟩

theorem sameFilesAndTable_writeUserBuffer (h : s.writeUserBuffer addr len = (ok, t)) :
    SameFilesAndTable s t := by
  obtain ⟨spaces, phys, heq⟩ := s.writeUserBuffer_eq addr len
  rw [h] at heq
  obtain rfl : t = _ := heq
  exact ⟨rfl, rfl⟩

theorem sameFilesAndTable_readUser (h : s.readUser addr len = (bytes, t)) :
    SameFilesAndTable s t := by
  obtain ⟨spaces, phys, heq⟩ := s.readUser_eq addr len
  rw [h] at heq
  obtain rfl : t = _ := heq
  exact ⟨rfl, rfl⟩

theorem keepsStates_fds (h : s.currentProcess = some p) (hq : ∃ fds, q = { p with fds := fds }) :
    KeepsStates P s (s.put q) := by
  obtain ⟨i, -, hp⟩ := bind_eq_some_iff.1 h
  obtain ⟨fds, rfl⟩ := hq
  exact keepsStates_put (p := p) (get_self hp) id

/-- `close` wakes everyone whenever it finds the descriptor. -/
theorem userClose_cases (s : State) (fd : ℕ) :
    (s.userClose fd).2 = s ∨ ∃ t, KeepsStates Waits s t ∧ (s.userClose fd).2 = t.wakeIoWaiters := by
  unfold userClose
  split
  · exact .inl rfl
  next p hp =>
  split
  · exact .inl rfl
  next vfsFd q hq =>
  exact .inr ⟨((s.put q).fsClose vfsFd).2,
    (keepsStates_fds hp (removeFd_eq hq)).trans (.of_processes rfl), rfl⟩

theorem keepsStates_userClose (s : State) (fd : ℕ) : KeepsStates Waits s (s.userClose fd).2 := by
  rcases userClose_cases s fd with h | ⟨t, ht, h⟩
  · rw [h]
    exact .refl _ s
  · rw [h]
    exact ht.trans (wakeIoWaiters_rel (containsSends_keepsStates lasting_waits) t)

theorem leaves_userDup (s : State) (fd : ℕ) : Leaves [] s.vfs (s.userDup fd).2.vfs := by
  unfold userDup
  split
  · exact .refl _ _
  split
  · split
    · exact .refl _ _
    next dup v hd =>
    obtain ⟨hleaves, hfree⟩ := leaves_duplicateFd hd
    split
    · exact hleaves.close (.inr hfree)
    · exact hleaves
  · exact .refl _ _

theorem replaceFdWithFlags_old
    (h : p.replaceFdWithFlags userFd vfsFd flags fdFlags = some (some old, q)) :
    p.lookupFd userFd = some old := by
  unfold replaceFdWithFlags at h
  split at h
  · cases h
  split at h
  · next hold =>
    rw [hold]
    exact (Prod.mk.inj (some.inj h)).1
  · obtain ⟨r, -, heq⟩ := map_eq_some_iff.1 h
    cases (Prod.mk.inj heq).1

/-- `dup2` of an open descriptor closes the open file that the target had. -/
theorem replaceFd_cases (s : State) (p : Process) (fd target flags : ℕ) :
    (s.replaceFd p fd target flags).2 = s ∨ (p.lookupFd fd).isSome ∧
      Leaves (p.lookupFd target).toList s.vfs (s.replaceFd p fd target flags).2.vfs := by
  unfold replaceFd
  split
  · next hfd =>
    refine .inr ⟨by rw [hfd]; rfl, ?_⟩
    split
    · exact .refl _ _
    next dup v hd =>
    obtain ⟨hleaves, hfree⟩ := leaves_duplicateFd hd
    dsimp only
    split
    · exact hleaves.of_nil.close (.inr hfree)
    · exact hleaves.of_nil
    next old q hq =>
    have hclosed : Leaves (p.lookupFd target).toList s.vfs (v.close old).2 := by
      refine hleaves.of_nil.close (.inl ?_)
      rw [replaceFdWithFlags_old hq]
      exact mem_singleton_self old
    split <;> next h => exact (congrArg (fun r : _ × State => r.2.vfs) h) ▸ hclosed
  · exact .inl rfl

theorem userDup2_cases (s : State) (fd target : ℕ) :
    (s.userDup2 fd target).2 = s ∨ fd ≠ target ∧ ∃ p, s.currentProcess = some p ∧
      (p.lookupFd fd).isSome ∧
        Leaves (p.lookupFd target).toList s.vfs (s.userDup2 fd target).2.vfs := by
  unfold userDup2
  split
  · exact .inl rfl
  next p hp =>
  split
  · split <;> exact .inl rfl
  · next hne => exact (replaceFd_cases s p fd target 0).imp_right fun h => ⟨hne, p, hp, h⟩

theorem linuxDup3_cases (s : State) (fd target flags : ℕ) :
    (s.linuxDup3 fd target flags).2 = s ∨ fd ≠ target ∧ ∃ p, s.currentProcess = some p ∧
      (p.lookupFd fd).isSome ∧
        Leaves (p.lookupFd target).toList s.vfs (s.linuxDup3 fd target flags).2.vfs := by
  unfold linuxDup3
  split
  · exact .inl rfl
  unfold userDup3
  dsimp only
  split
  · exact .inl rfl
  next p hp =>
  split
  · exact .inl rfl
  · next hne => exact (replaceFd_cases s p fd target _).imp_right fun h => ⟨hne, p, hp, h⟩

/-- The open files that `execve` closes. -/
def closedOnExec (p : Process) : List ℕ :=
  p.sharedMappings ++ (p.fds.filter fun e => e.fdFlags &&& fdCloexec ≠ 0).map FdEntry.vfsFd

theorem leaves_execForUser (h : s.get pid = some p) (image : ExecImage) :
    Leaves (closedOnExec p) s.vfs (s.execForUser pid image).vfs := by
  unfold execForUser
  rw [h]
  dsimp only
  split
  · exact .refl _ _
  obtain ⟨spaces, phys, heq⟩ := destroyAddressSpaceHandle_eq _ p.addressSpace
  rw [heq]
  refine leaves_closeOnExecFds _ _ _ _ ((Leaves.refl _ _).closeAll fun fd hfd => ?_)
    fun e he hflag => ?_
  · exact .inl (mem_append_left _ hfd)
  · exact mem_append_right _ (mem_map_of_mem (by simpa [he] using hflag))

/-- A descriptor that was just pushed holds the open file it was pushed for. -/
theorem removeFd_pushFdWithAllFlags (h : p.pushFdWithAllFlags vfsFd flags fdFlags = some (userFd, q))
    (hr : q.removeFd userFd = some (fd, r)) : fd = vfsFd := by
  unfold pushFdWithAllFlags at h
  split at h
  · cases h
  next free hfree =>
  obtain ⟨q', hq', heq⟩ := map_eq_some_iff.1 h
  obtain ⟨rfl, rfl⟩ := Prod.mk.inj heq
  have hnone : ∀ e ∈ p.fds, e.userFd ≠ free := by
    simpa using find?_some hfree
  have hfds : q'.fds = p.fds ++ [⟨free, vfsFd, flags, fdFlags⟩] := by
    unfold setFdWithFlags at hq'
    split at hq'
    · cases hq'
    split at hq'
    · next hany =>
      obtain ⟨e, he, huser⟩ := any_eq_true.1 hany
      exact absurd (by simpa using huser) (hnone e he)
    split at hq'
    · cases hq'
    · rw [← some.inj hq']
  unfold removeFd at hr
  split at hr
  · cases hr
  next i hi =>
  obtain ⟨e, he, heq'⟩ := map_eq_some_iff.1 hr
  obtain ⟨hlt, huser, -⟩ := findIdx?_eq_some_iff_getElem.1 hi
  obtain ⟨_, hget⟩ := List.getElem?_eq_some_iff.1 he
  rw [hget] at huser
  have hmem : e ∈ p.fds ++ [⟨free, vfsFd, flags, fdFlags⟩] := hfds ▸ mem_of_getElem? he
  rw [← (Prod.mk.inj heq').1]
  rcases mem_append.1 hmem with hin | hnew
  · exact absurd (by simpa using huser) (hnone e hin)
  · rw [mem_singleton.1 hnew]

/-- A pipe is made without closing anything, or with everyone woken. -/
theorem installPipeFdsWithFlags_cases (hv : Leaves [] v s.vfs) (hread : v.handle readVfs = none)
    (hwrite : v.handle writeVfs = none) (pipefd statusFlags fdFlags : ℕ) :
    Leaves [] v (s.installPipeFdsWithFlags pipefd readVfs writeVfs statusFlags fdFlags).2.vfs ∨
      NoneLeft s (s.installPipeFdsWithFlags pipefd readVfs writeVfs statusFlags fdFlags).2 := by
  have hboth : ∀ fd ∈ [readVfs, writeVfs], fd ∈ ([] : List ℕ) ∨ v.handle fd = none := by
    simp [hread, hwrite]
  unfold installPipeFdsWithFlags
  split
  · exact .inl (hv.closeAll hboth)
  next p hp =>
  split
  · exact .inl (hv.closeAll hboth)
  next userRead q hq =>
  split
  · split
    · next fd r hr =>
      rw [removeFd_pushFdWithAllFlags hq hr]
      exact .inl (hv.closeAll hboth)
    · exact .inl (hv.closeAll (by simp [hwrite]))
  next userWrite r hr =>
  have hfds : ∃ fds, r = { p with fds := fds } := by
    obtain ⟨_, rfl⟩ := pushFdWithAllFlags_eq hq
    obtain ⟨fds, rfl⟩ := pushFdWithAllFlags_eq hr
    exact ⟨fds, rfl⟩
  have hput : KeepsStates Waits s (s.put r) := keepsStates_fds hp hfds
  dsimp only
  split
  · next u hu =>
    have hsame := sameFilesAndTable_writeUser hu
    have hfirst := keepsStates_userClose u userRead
    replace hput := hput.trans (.of_processes hsame.processes)
    rcases userClose_cases (u.userClose userRead).2 userWrite with h | ⟨t, ht, h⟩
    · rw [h]
      rcases userClose_cases u userRead with h' | ⟨t, ht, h'⟩
      · rw [h', hsame.vfs]
        exact .inl hv
      · rw [h']
        exact .inr (noneLeft_wakeIoWaiters (hput.trans ht))
    · rw [h]
      exact .inr (noneLeft_wakeIoWaiters ((hput.trans hfirst).trans ht))
  · next u hu =>
    rw [(sameFilesAndTable_writeUser hu).vfs]
    exact .inl hv

theorem linuxPipe2_cases (s : State) (pipefd flags : ℕ) :
    Leaves [] s.vfs (s.linuxPipe2 pipefd flags).2.vfs ∨
      NoneLeft s (s.linuxPipe2 pipefd flags).2 := by
  unfold linuxPipe2
  split
  · exact .inl (.refl _ _)
  split
  · next ht =>
    rw [(sameFilesAndTable_writeUserBuffer ht).vfs]
    exact .inl (.refl _ _)
  next t ht =>
  have hsame := sameFilesAndTable_writeUserBuffer ht
  obtain ⟨hleaves, hends⟩ := leaves_createPipe t.vfs pipeCapacity
  rw [hsame.vfs] at hleaves hends
  rw [hsame.vfs]
  split
  · next h =>
    rw [h] at hleaves
    exact .inl hleaves
  next readFd writeFd v h =>
  rw [h] at hleaves hends
  obtain ⟨hread, hwrite⟩ := hends _ _ rfl
  refine (installPipeFdsWithFlags_cases hleaves hread hwrite _ _ _).imp_right
    fun hnone m p q hp => ?_
  refine hnone m p q ?_
  rw [get, hsame.processes]
  exact hp

theorem setPipe_self (h : v.pipes[pipe]? = some r) : v.setPipe pipe r = v := by
  obtain ⟨hlt, rfl⟩ := List.getElem?_eq_some_iff.1 h
  rw [setPipe, set_getElem_self]

/-- A read moves bytes and wakes everyone, or does nothing. -/
theorem fsRead_cases (s : State) (fd : ℕ) (hlen : len ≠ 0) (other : Except VfsError (List UInt8)) :
    (s.fsRead fd len other).2 = s ∨
      ∃ v bytes, s.fsRead fd len other = (.ok bytes, { s with vfs := v }.wakeIoWaiters) := by
  unfold fsRead
  rcases read_cases s.vfs fd len other with ⟨hsame, herr⟩ | ⟨pipe, r, hfd, hr, heq⟩
  · left
    dsimp only
    rw [hsame]
    split
    · next bytes hok =>
      refine if_neg fun hpipe => ?_
      obtain ⟨e, he⟩ := herr hpipe.2
      rw [hok] at he
      cases he
    · rfl
  rw [heq]
  dsimp only
  split_ifs with hwake
  · exact .inr ⟨_, _, rfl⟩
  left
  have hbuf : r.buffer = [] := by
    by_contra hne
    exact hwake ⟨by simp [take_eq_nil_iff, hlen, hne], by simp [isPipe, hfd]⟩
  have hself : ({ r with buffer := r.buffer.drop len } : PipeState) = r := by
    rw [hbuf, drop_nil, ← hbuf]
  rw [hself, setPipe_self hr]

/-- So does a write. -/
theorem fsWrite_cases (s : State) (fd : ℕ) (input : List UInt8) (other : Except VfsError ℕ) :
    (s.fsWrite fd input other).2 = s ∨ ∃ v written, 0 < written ∧
        s.fsWrite fd input other = (.ok written, { s with vfs := v }.wakeIoWaiters) := by
  unfold fsWrite
  rcases write_cases s.vfs fd input other with
    ⟨hsame, herr⟩ | ⟨pipe, r, written, buffer, hfd, hr, heq, hmoved⟩
  · left
    dsimp only
    rw [hsame]
    split
    · next written hok =>
      refine if_neg fun hpipe => ?_
      obtain ⟨e, he⟩ := herr hpipe.2
      rw [hok] at he
      cases he
    · rfl
  rw [heq]
  dsimp only
  rcases hmoved with ⟨hzero, rfl⟩ | ⟨hpos, -⟩
  · left
    rw [if_neg (by omega), setPipe_self hr]
  · rw [if_pos ⟨hpos, by simp [isPipe, hfd]⟩]
    exact .inr ⟨_, written, hpos, rfl⟩

theorem blockCurrent_vfs (s : State) (reason : BlockReason) :
    (s.blockCurrent reason).vfs = s.vfs := by
  unfold blockCurrent modifyCurrent modify
  repeat' split
  all_goals rfl

theorem linuxRead_cases (s : State) (fd buf len : ℕ) (other : Except VfsError (List UInt8)) :
    (s.linuxRead fd buf len other).2.vfs = s.vfs ∨ NoneLeft s (s.linuxRead fd buf len other).2 := by
  unfold linuxRead
  split
  · split <;> exact .inl rfl
  next hlen =>
  split
  · next ht => exact .inl (sameFilesAndTable_writeUserBuffer ht).vfs
  next t ht =>
  have hsame := sameFilesAndTable_writeUserBuffer ht
  split
  · exact .inl hsame.vfs
  split
  · exact .inl hsame.vfs
  next vfsFd _ =>
  rcases fsRead_cases t vfsFd hlen other with hquiet | ⟨v, bytes, hmoved⟩
  · left
    split
    · next bytes u h =>
      rw [h] at hquiet
      have hu : u.vfs = s.vfs := (congrArg vfs hquiet).trans hsame.vfs
      split
      · next w hw => exact (sameFilesAndTable_writeUser hw).vfs.trans hu
      · next w hw => exact (sameFilesAndTable_writeUser hw).vfs.trans hu
    · next u h =>
      rw [h] at hquiet
      have hu : u.vfs = s.vfs := (congrArg vfs hquiet).trans hsame.vfs
      split
      · exact hu
      · exact (blockCurrent_vfs _ _).trans hu
    · next e u _ h =>
      rw [h] at hquiet
      exact (congrArg vfs hquiet).trans hsame.vfs
  right
  rw [hmoved]
  have hwake : NoneLeft s { t with vfs := v }.wakeIoWaiters :=
    noneLeft_wakeIoWaiters (.of_processes hsame.processes)
  dsimp only
  split
  · next w hw =>
    exact hwake.trans (.of_processes (sameFilesAndTable_writeUser hw).processes)
  · next w hw =>
    exact hwake.trans (.of_processes (sameFilesAndTable_writeUser hw).processes)

/-- What a signal to the writer itself does: it is queued. -/
structure Bystander (s t : State) : Prop where
  vfs : t.vfs = s.vfs
  states : KeepsStates Settled s t

theorem containsSends_bystander :
    ContainsSends (fun signal => signal.hasStopDefault = false) Bystander := by
  have hK := containsSends_keepsStates lasting_settled
  exact {
    refl := fun s => ⟨rfl, hK.refl s⟩
    trans := fun h h' => ⟨h'.vfs.trans h.vfs, hK.trans h.states h'.states⟩
    wake := fun h hb => ⟨rfl, hK.wake h hb⟩
    sigchld := fun h hi => ⟨rfl, hK.sigchld h hi⟩
    adopt := fun h hold hparent => ⟨rfl, hK.adopt h hold hparent⟩
    forget := fun h => ⟨rfl, hK.forget h⟩
    receive := fun h hS current => ⟨rfl, hK.receive h hS current⟩
    stop := fun h hz hS hstop => ⟨rfl, hK.stop h hz hS hstop⟩
    resume := fun h hst => ⟨rfl, hK.resume h hst⟩
    leave := fun s hS hstop => ⟨rfl, hK.leave s hS hstop⟩
    queue := fun s runQueue => ⟨rfl, hK.queue s runQueue⟩
    ready := fun h hb => ⟨rfl, hK.ready h hb⟩
    woken := fun h hw => ⟨rfl, hK.woken h hw⟩ }

theorem not_endedBy_self (h : s.current = some p.pid) (status : ℤ) :
    p.endedBy status s.current = false := by
  simp [endedBy, shouldQueueSignal, h]

theorem bystander_mapWriteVfsError (s : State) (e : VfsError) :
    Bystander s (s.mapWriteVfsError e).2 := by
  unfold mapWriteVfsError
  split
  · split
    · next pid hcur =>
      refine send_rel containsSends_bystander rfl (containsSends_bystander.refl s)
        (Q := fun t p => p.endedBy Signal.pipe.defaultStatus t.current = false)
        (fun t p u _ _ hq hend => ?_) fun p hp => not_endedBy_self (by rw [pid_of_get hp, hcur]) _
      rw [hq] at hend
      cases hend
    · exact containsSends_bystander.refl s
  · exact containsSends_bystander.refl s

/-- The loop of `linux_write`: once bytes went into the pipe, everyone is woken. -/
theorem linuxWriteFrom_cases (vfsFd buf len : ℕ) (nonblocking : Bool) (other : Except VfsError ℕ)
    (n : ℕ) : ∀ total t, KeepsStates Waits s t → (t.vfs = s.vfs ∨ 0 < total ∧ NoneLeft s t) →
      (linuxWriteFrom vfsFd buf len nonblocking other n total t).2.vfs = s.vfs ∨
        NoneLeft s (linuxWriteFrom vfsFd buf len nonblocking other n total t).2 := by
  induction n with
  | zero => exact fun _ _ _ h => h.imp_right And.right
  | succ n ih =>
    intro total t hkeep h
    unfold linuxWriteFrom
    split
    · exact h.imp_right And.right
    split
    · next hu =>
      have hsame := sameFilesAndTable_readUser hu
      refine h.imp (hsame.vfs.trans ·) fun hnone => ?_
      exact hnone.2.trans (.of_processes hsame.processes)
    next bytes u hu =>
    have hsame := sameFilesAndTable_readUser hu
    have hkeep' : KeepsStates Waits s u := hkeep.trans (.of_processes hsame.processes)
    have h' : u.vfs = s.vfs ∨ 0 < total ∧ NoneLeft s u := by
      refine h.imp (hsame.vfs.trans ·) fun ⟨hpos, hnone⟩ => ⟨hpos, ?_⟩
      exact hnone.trans (.of_processes hsame.processes)
    rcases fsWrite_cases u vfsFd bytes other with hquiet | ⟨v, written, hpos, hmoved⟩
    · split
      · next written w hw =>
        rw [hw] at hquiet
        obtain rfl : w = u := hquiet
        split
        · exact h'.imp_right And.right
        · refine ih _ _ hkeep' (h'.imp_right fun ⟨hpos, hnone⟩ => ⟨by omega, hnone⟩)
      · next w hw =>
        rw [hw] at hquiet
        obtain rfl : w = u := hquiet
        split
        · exact h'.imp_right And.right
        next htotal =>
        have hvfs := h'.resolve_right fun hpos => htotal hpos.1
        split
        · exact .inl hvfs
        · exact .inl ((blockCurrent_vfs _ _).trans hvfs)
      · next e w _ hw =>
        rw [hw] at hquiet
        obtain rfl : w = u := hquiet
        have hby := bystander_mapWriteVfsError w e
        exact h'.imp (hby.vfs.trans ·) fun ⟨_, hnone⟩ => hnone.trans hby.states
    · rw [hmoved]
      have hwake : NoneLeft s { u with vfs := v }.wakeIoWaiters :=
        noneLeft_wakeIoWaiters (hkeep'.trans (.of_processes rfl))
      have hkeep'' : KeepsStates Waits s { u with vfs := v }.wakeIoWaiters :=
        (hkeep'.trans (.of_processes rfl)).trans
          (wakeIoWaiters_rel (containsSends_keepsStates lasting_waits) _)
      dsimp only
      split
      · exact .inr hwake
      · exact ih _ _ hkeep'' (.inr ⟨by omega, hwake⟩)

theorem linuxWrite_cases (s : State) (fd buf len : ℕ) (other : Except VfsError ℕ) :
    (s.linuxWrite fd buf len other).2.vfs = s.vfs ∨
      NoneLeft s (s.linuxWrite fd buf len other).2 := by
  unfold linuxWrite
  split
  · exact linuxWriteFrom_cases _ _ _ _ _ _ _ _ (.refl _ s) (.inl rfl)
  split
  · next ht => exact .inl (sameFilesAndTable_readUser ht).vfs
  · next ht => split <;> exact .inl (sameFilesAndTable_readUser ht).vfs

theorem keepsStates_takePendingSignalCurrent (s : State) :
    KeepsStates P s s.takePendingSignalCurrent.2 := by
  unfold takePendingSignalCurrent
  split
  · exact .refl _ s
  split
  · exact .refl _ s
  next p hp =>
  obtain ⟨bits, last, heq⟩ := p.takePendingSignal_eq
  have hput : KeepsStates P s (s.put p.takePendingSignal.2) := by
    rw [heq]
    exact keepsStates_put (p := p) (get_self hp) id
  split <;> next h => rw [h] at hput; exact hput

end State

end Ristux.Kernel
