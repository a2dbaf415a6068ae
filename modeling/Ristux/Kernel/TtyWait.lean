import Ristux.Kernel.Tty
import Ristux.Kernel.Events
import Ristux.Kernel.Waiters

-- A read that finds nothing parks its process with the deadline that `read_deadline_ms` gives at
-- that moment. The time between two bytes starts later, with the first byte, so a reader that
-- waits for several bytes is parked without a deadline.

namespace Ristux.Kernel
open List Function Tty State

structure TtyWaiter where
  pid : Pid
  deadlineMs : Option ℕ

/-- Whether a deadline has passed. -/
def deadlineExpired (deadlineMs : Option ℕ) (nowMs : ℕ) : Bool := deadlineMs.any (· ≤ nowMs)

namespace Tty

def readDeadlineMs (t : Tty) (nowMs : ℕ) : Option ℕ :=
  let minLen := (t.termios.cc vMin).toNat
  let timeDs := (t.termios.cc vTime).toNat
  let timeoutMs := min (timeDs * 100) u64Max
  if t.termios.canonicalEnabled || timeDs == 0 then none
  else if t.line.isEmpty then
    if minLen == 0 then some (min (nowMs + timeoutMs) u64Max) else none
  else if minLen != 0 && decide (t.line.length < minLen) then
    t.rawFirstByteMs.map fun first => min (first + timeoutMs) u64Max
  else none

def hasData (t : Tty) : Bool :=
  let minLen := (t.termios.cc vMin).toNat
  if t.termios.canonicalEnabled then !t.ready.isEmpty || t.eof
  else !t.line.isEmpty && (minLen == 0 || decide (minLen ≤ t.line.length))

end Tty

/-- `Vec::swap_remove`. -/
def swapRemove {α : Type} (l : List α) (i : ℕ) : List α :=
  match l.getLast? with
  | none => l
  | some last => (l.set i last).dropLast

def State.stateOf (s : State) (pid : Pid) : Option ProcessState := (s.get pid).map (·.state)

/-- How `park_current_until` blocks the process. -/
def parkReason : Option ℕ → BlockReason
  | some deadline => .waitIoUntil deadline
  | none => .waitIo

/-- The terminal, the processes that wait for it, and the kernel. -/
structure TtyReaders where
  tty : Tty
  waiters : List TtyWaiter
  foregroundPgrp : Pid
  kernel : State
  /-- The processes that are blocked inside a read of the terminal. -/
  reading : List Pid

namespace TtyReaders

def start (kernel : State) : TtyReaders := ⟨.new, [], 1, kernel, []⟩

/-- A reader is no longer blocked in its read once something has changed its state. -/
def withKernel (r : TtyReaders) (kernel : State) : TtyReaders :=
  { r with
    kernel := kernel
    reading := r.reading.filter fun pid => kernel.stateOf pid = r.kernel.stateOf pid }

def park (r : TtyReaders) (pid : Pid) (deadlineMs : Option ℕ) : TtyReaders :=
  match r.waiters.findIdx? (·.pid = pid) with
  | some i => { r with waiters := r.waiters.set i ⟨pid, deadlineMs⟩ }
  | none => { r with waiters := r.waiters ++ [⟨pid, deadlineMs⟩] }

def parkCurrentUntil (r : TtyReaders) (pid : Pid) (deadlineMs : Option ℕ) : TtyReaders :=
  let r := (r.park pid deadlineMs).withKernel (r.kernel.blockCurrent (parkReason deadlineMs))
  { r with reading := pid :: r.reading }

/-- Takes out the first waiter with the property, if there is one. -/
def takeWaiter (r : TtyReaders) (p : TtyWaiter → Bool) : Bool × TtyReaders :=
  match r.waiters.findIdx? p with
  | none => (false, r)
  | some i => (true, { r with waiters := swapRemove r.waiters i })

def expiredWaiter (r : TtyReaders) (pid : Pid) (nowMs : ℕ) : Bool × TtyReaders :=
  r.takeWaiter fun w => w.pid = pid && deadlineExpired w.deadlineMs nowMs

def clearWaiter (r : TtyReaders) (pid : Pid) : TtyReaders := (r.takeWaiter (·.pid = pid)).2

/-- One pass through the loop of `linux_read` by the process `pid`: `try_read_for_current`, and
the parking that follows when it has nothing. -/
def readPass (r : TtyReaders) (pid : Pid) (nowMs maxLen : ℕ) (nonblocking : Bool) :
    Option (List UInt8) × TtyReaders :=
  let (timeoutExpired, r) := r.expiredWaiter pid nowMs
  match r.tty.readAvailableAt nowMs timeoutExpired maxLen with
  | (some line, tty) => (some line, { r with tty := tty }.clearWaiter pid)
  | (none, tty) =>
    let r := { r with tty := tty }
    (none, if nonblocking then r else r.parkCurrentUntil pid (tty.readDeadlineMs nowMs))

/-- A read by the running process. A process that is still blocked makes no calls. -/
def read (r : TtyReaders) (nowMs maxLen : ℕ) (nonblocking : Bool) :
    Option (List UInt8) × TtyReaders :=
  match r.kernel.currentProcess with
  | none => (none, r)
  | some p =>
    if p.state.isBlocked then (none, r) else r.readPass p.pid nowMs maxLen nonblocking

/-- The processes drained from the waiters, and everything afterwards. -/
def inputByte (r : TtyReaders) (byte : UInt8) (nowMs : ℕ) : List Pid × TtyReaders :=
  match r.tty.input byte nowMs with
  | (some signal, tty) =>
    let kernel := (r.kernel.signalPgrp r.foregroundPgrp signal.defaultStatus).1
    ([], { r with tty := tty }.withKernel kernel)
  | (none, tty) =>
    if tty.hasData then
      let drained := r.waiters.map (·.pid)
      let kernel := drained.foldl wakeIoWaitersFor r.kernel
      (drained, { r with tty := tty, waiters := [] }.withKernel kernel)
    else ([], { r with tty := tty })

/-- What a scancode gives goes to the terminal, then everyone who waits for input or output is
woken. -/
def keyboardInterrupt (r : TtyReaders) (bytes : List UInt8) (nowMs : ℕ) : TtyReaders :=
  let r := bytes.foldl (fun r byte => (r.inputByte byte nowMs).2) r
  r.withKernel r.kernel.wakeIoWaiters

end TtyReaders

/-- `inputByte` is a byte of a repeated key, which the timer interrupt delivers. -/
inductive TtyEvent where
  | inputByte (byte : UInt8)
  | keyboard (bytes : List UInt8)
  | read (maxLen : ℕ) (nonblocking : Bool)
  | setTermios (termios : Termios)
  | setForegroundPgrp (pgrp : Pid)
  | kernel (event : Event)

namespace TtyEvent

def exec (r : TtyReaders) (nowMs : ℕ) : TtyEvent → TtyReaders
  | .inputByte byte => (r.inputByte byte nowMs).2
  | .keyboard bytes => r.keyboardInterrupt bytes nowMs
  | .read maxLen nonblocking => (r.read nowMs maxLen nonblocking).2
  | .setTermios termios => { r with tty := r.tty.setTermios termios nowMs }
  | .setForegroundPgrp pgrp => { r with foregroundPgrp := pgrp }
  | .kernel event => r.withKernel (event.exec r.kernel)

/-- A run of events, each with its time. -/
def run (r : TtyReaders) (events : List (ℕ × TtyEvent)) : TtyReaders :=
  events.foldl (fun r e => e.2.exec r e.1) r

end TtyEvent

/-- With this deadline a reader of the terminal is woken in time: whenever its read would return,
the deadline has passed. -/
def Tty.InTime (t : Tty) (deadlineMs : Option ℕ) : Prop :=
  ∀ nowMs maxLen, maxLen ≠ 0 →
    (t.readAvailableAt nowMs (deadlineExpired deadlineMs nowMs) maxLen).1.isSome →
    ∃ deadline, deadlineMs = some deadline ∧ deadline ≤ nowMs

namespace TtyReaders

/-- The process is blocked until the deadline, or without one. -/
def ParkedUntil (r : TtyReaders) (pid : Pid) (deadlineMs : Option ℕ) : Prop :=
  r.kernel.stateOf pid = some (.blocked (parkReason deadlineMs))

/-- Every process in a read has its entry, and is blocked until the deadline of the entry, which
has the property. -/
def AllParked (r : TtyReaders) (P : Option ℕ → Prop) : Prop :=
  ∀ pid ∈ r.reading, ∃ deadlineMs, r.ParkedUntil pid deadlineMs ∧ ⟨pid, deadlineMs⟩ ∈ r.waiters ∧
    P deadlineMs

/-- The deadline of every parked process wakes it in time. -/
def Woken (r : TtyReaders) : Prop := r.AllParked r.tty.InTime

/-- Every process in a read is woken by the timer at `limit` or before. -/
def AllDueBy (r : TtyReaders) (limit : ℕ) : Prop :=
  ∀ pid ∈ r.reading, ∃ deadline ≤ limit, r.ParkedUntil pid (some deadline)

end TtyReaders

/-- The first time at which a read returns whose own timeout has not run out. -/
def Tty.firstReadableMs (t : Tty) : Option ℕ :=
  let minLen := (t.termios.cc vMin).toNat
  let timeDs := (t.termios.cc vTime).toNat
  if t.termios.canonicalEnabled then
    if !t.ready.isEmpty || t.eof || t.line.any (· == newline) then some 0 else none
  else if t.line.isEmpty then if minLen == 0 && timeDs == 0 then some 0 else none
  else if minLen ≤ t.line.length then some 0
  else if timeDs == 0 then none
  else t.rawFirstByteMs.map fun first => min (first + min (timeDs * 100) u64Max) u64Max

/-- The byte starts the time between the bytes of a read that waits for more of them. -/
def Tty.StartsTimer (t : Tty) (byte : UInt8) : Prop :=
  t.termios.canonicalEnabled = false ∧ t.line = [] ∧ 1 < (t.termios.cc vMin).toNat ∧
    (t.termios.cc vTime).toNat ≠ 0 ∧ (t.input byte 0).1 = none

/-- When a repeated key starts the time between bytes, the parked readers are due before it ends;
when the terminal is set, they are due before a read can return under the new settings. -/
def TtyEvent.Allowed (r : TtyReaders) (nowMs : ℕ) : TtyEvent → Prop
  | .inputByte byte => r.tty.StartsTimer byte →
      r.AllDueBy (min (nowMs + min ((r.tty.termios.cc vTime).toNat * 100) u64Max) u64Max)
  | .setTermios termios =>
      ∀ limit, (r.tty.setTermios termios nowMs).firstReadableMs = some limit → r.AllDueBy limit
  | _ => True

/-- Each event of a run is allowed where it happens. -/
def TtyEvent.AllAllowed : TtyReaders → List (ℕ × TtyEvent) → Prop
  | _, [] => True
  | r, e :: events => e.2.Allowed r e.1 ∧ AllAllowed (e.2.exec r e.1) events

/-- A read of at least one byte would return. -/
def Tty.readable (t : Tty) (nowMs : ℕ) (timeoutExpired : Bool) : Bool :=
  let minLen := (t.termios.cc vMin).toNat
  if t.termios.canonicalEnabled then !t.ready.isEmpty || t.eof || t.line.any (· == newline)
  else if t.line.isEmpty then
    minLen == 0 && ((t.termios.cc vTime).toNat == 0 || timeoutExpired)
  else minLen == 0 || decide (minLen ≤ t.line.length) || t.interbyteExpired nowMs

section
variable {t t' : Tty} {nowMs now' maxLen : ℕ} {x y : Bool} {byte : UInt8} {deadlineMs : Option ℕ}

theorem isSome_readAvailableAt (h : maxLen ≠ 0) :
    (t.readAvailableAt nowMs x maxLen).1.isSome = t.readable nowMs x := by
  rw [readAvailableAt, if_neg h, readable]
  cases t.termios.canonicalEnabled with
  | true =>
    have hline : (t.line.findIdx? (· == newline)).isSome = _ := findIdx?_isSome
    simp only [readCanonical, Bool.not_true, Bool.false_eq_true, if_false, if_true]
    cases t.ready with
    | cons first ready => rfl
    | nil =>
      cases t.eof
      · cases hf : t.line.findIdx? (· == newline) <;> simp_all
      · rfl
  | false =>
    simp only [readRaw, Bool.not_false, Bool.false_eq_true, if_false, if_true]
    split_ifs <;> grind

/-- What a read leaves is not readable earlier than what it found. -/
theorem readable_of_read {out : List UInt8}
    (hr : t.readAvailableAt nowMs x maxLen = (some out, t')) (ht : t'.readable now' y) :
    t.readable now' y := by
  rw [readAvailableAt] at hr
  split_ifs at hr with h hc
  · rwa [(Prod.mk.inj hr).2]
  · rw [readRaw] at hr
    split_ifs at hr
    all_goals simp only [Prod.mk.injEq, reduceCtorEq, false_and] at hr
    all_goals obtain rfl := hr.2
    · exact ht
    -- the rest of the line is shorter and has the same first byte
    all_goals
      simp only [readable, interbyteExpired] at ht hc ⊢
      grind
  · have hsome : (t.readAvailableAt nowMs x maxLen).1.isSome = _ := isSome_readAvailableAt h
    rw [readAvailableAt, if_neg h, if_neg hc, hr] at hsome
    simp only [readable] at hsome ⊢
    simp_all

theorem eq_of_read_none (hr : t.readAvailableAt nowMs x maxLen = (none, t')) : t' = t := by
  rw [readAvailableAt, readRaw, readCanonical] at hr
  split_ifs at hr <;> grind

theorem readable_of_input (hi : t.input byte nowMs = (none, t')) (hd : t'.hasData = false)
    (ht : t'.readable now' y) (hfirst : t.termios.canonicalEnabled = false → t.line = [] →
      1 < (t.termios.cc vMin).toNat → (t.termios.cc vTime).toNat = 0) : t.readable now' y := by
  rw [input] at hi
  cases hc : t.termios.canonicalEnabled with
  | true =>
    have hdrop : t.line.dropLast.any (· == newline) → t.line.any (· == newline) := by
      simpa using fun h => mem_of_mem_dropLast h
    split_ifs at hi
    all_goals simp only [Prod.mk.injEq, reduceCtorEq, false_and, true_and] at hi
    all_goals subst hi
    all_goals simp only [readable, hasData, hc, if_true] at hd ht ⊢
    all_goals grind
  | false =>
    split_ifs at hi
    all_goals simp only [Prod.mk.injEq, reduceCtorEq, false_and, true_and] at hi
    all_goals subst hi
    all_goals
      simp only [readable, hasData, interbyteExpired, hc] at hd ht hfirst ⊢
      grind

theorem readable_iff : t.readable nowMs x ↔
    (∃ first, t.firstReadableMs = some first ∧ first ≤ nowMs) ∨
      x ∧ t.termios.canonicalEnabled = false ∧ t.line = [] ∧ (t.termios.cc vMin).toNat = 0 := by
  rw [readable, firstReadableMs]
  cases hc : t.termios.canonicalEnabled with
  | true =>
    simp only [if_true]
    split_ifs with h <;> simp_all
  | false =>
    by_cases hl : t.line = []
    · by_cases hm : (t.termios.cc vMin).toNat = 0 <;>
        by_cases ht : (t.termios.cc vTime).toNat = 0 <;> simp [hl, hm, ht]
    have hlen : 0 < t.line.length := length_pos_iff.2 hl
    by_cases hm : (t.termios.cc vMin).toNat ≤ t.line.length
    · simp [hl, hm]
    have hmin : (t.termios.cc vMin).toNat ≠ 0 := by omega
    by_cases ht : (t.termios.cc vTime).toNat = 0
    · simp [interbyteExpired, hl, hm, hmin, ht]
    · cases hf : t.rawFirstByteMs <;> simp [interbyteExpired, hl, hm, hmin, ht, hf]

theorem inTime_iff : t.InTime deadlineMs ↔ ∀ first, t.firstReadableMs = some first →
    ∃ deadline, deadlineMs = some deadline ∧ deadline ≤ first := by
  constructor
  · intro h first hfirst
    refine h first 1 one_ne_zero ?_
    rw [isSome_readAvailableAt one_ne_zero, readable_iff]
    exact .inl ⟨first, hfirst, le_rfl⟩
  · intro h nowMs maxLen hmax hsome
    rw [isSome_readAvailableAt hmax, readable_iff] at hsome
    rcases hsome with ⟨first, hfirst, hle⟩ | ⟨hexpired, -⟩
    · obtain ⟨deadline, hd, hdle⟩ := h first hfirst
      exact ⟨deadline, hd, hdle.trans hle⟩
    · simpa [deadlineExpired, Option.any_eq_true] using hexpired

theorem Tty.InTime.mono (h : t.InTime deadlineMs)
    (ht : ∀ nowMs x, t'.readable nowMs x → t.readable nowMs x) : t'.InTime deadlineMs := by
  intro nowMs maxLen hmax hsome
  refine h nowMs maxLen hmax ?_
  rw [isSome_readAvailableAt hmax] at hsome ⊢
  exact ht _ _ hsome

/-- A reader that is parked has the deadline at which its read would return, if any. -/
theorem inTime_readDeadlineMs (hr : (t.readAvailableAt nowMs x maxLen).1 = none) :
    t.InTime (t.readDeadlineMs nowMs) := by
  have hmax : maxLen ≠ 0 := by
    rintro rfl
    simp [readAvailableAt] at hr
  have hnone : ¬ t.readable nowMs x := by
    rw [← isSome_readAvailableAt hmax, hr]
    simp
  rw [readable_iff, not_or] at hnone
  rw [inTime_iff]
  intro first hfirst
  have hlate : nowMs < first := by
    by_contra hle
    exact hnone.1 ⟨first, hfirst, by omega⟩
  cases hf : t.rawFirstByteMs <;> simp only [firstReadableMs, readDeadlineMs, hf] at hfirst ⊢ <;>
    grind

theorem input_fst (t : Tty) (byte : UInt8) (nowMs : ℕ) :
    (t.input byte nowMs).1 = (t.input byte 0).1 := by
  rw [input, input]
  split_ifs <;> rfl

theorem eq_of_input_some {signal : Signal} (hi : t.input byte nowMs = (some signal, t')) :
    t' = t := by
  rw [input] at hi
  split_ifs at hi <;> grind

/-- The first byte of several: nobody is woken, and the time between bytes runs. -/
theorem Tty.StartsTimer.input (h : t.StartsTimer byte) (hi : t.input byte nowMs = (none, t')) :
    t'.hasData = false ∧ t'.firstReadableMs =
      some (min (nowMs + min ((t.termios.cc vTime).toNat * 100) u64Max) u64Max) := by
  obtain ⟨hraw, hline, hmin, htime, hsignal⟩ := h
  rw [Tty.input] at hi
  split_ifs at hi
  all_goals simp only [Prod.mk.injEq, reduceCtorEq, false_and, true_and] at hi
  all_goals subst hi
  all_goals
    simp only [hasData, firstReadableMs, hraw, hline] at *
    grind

end

theorem parkReason_injective : Injective parkReason := by
  intro a b h
  cases a <;> cases b <;> simp_all [parkReason]

namespace State
variable {s : State} {pid m : Pid}

theorem stateOf_enqueue : (s.enqueue pid).stateOf m = s.stateOf m := by
  rw [enqueue]
  split_ifs <;> rfl

theorem stateOf_wakeIoWaitersFor : (s.wakeIoWaitersFor pid).stateOf m =
    if m = pid then (s.stateOf m).map fun st => if st.isIoBlocked then .ready else st
    else s.stateOf m := by
  unfold wakeIoWaitersFor
  cases hp : s.get pid with
  | none =>
    split_ifs with hm
    · subst hm
      simp [stateOf, hp]
    · rfl
  | some p =>
    have hpid := pid_of_get hp
    dsimp only
    split_ifs with hb hm hm
    · subst hm
      have hget := get_put_self (p := { p with state := .ready }) (hpid.symm ▸ hp)
      rw [wakeBlocked]
      split_ifs
      · rw [stateOf_enqueue]
        simp_all [stateOf]
      · simp_all [stateOf]
    · have hget : (s.put { p with state := .ready }).get m = s.get m :=
        get_put_of_ne (hpid.symm ▸ hm)
      rw [wakeBlocked]
      split_ifs
      · rw [stateOf_enqueue]
        simp [stateOf, hget]
      · simp [stateOf, hget]
    · subst hm
      simp [stateOf, hp, hb]
    · rfl

/-- The processes of the list are ready if they waited for input or output. -/
theorem stateOf_foldl_wakeIoWaitersFor (pids : List Pid) (s : State) :
    (pids.foldl wakeIoWaitersFor s).stateOf m =
      if m ∈ pids then (s.stateOf m).map fun st => if st.isIoBlocked then .ready else st
      else s.stateOf m := by
  induction pids generalizing s with
  | nil => simp
  | cons pid pids ih =>
    rw [foldl_cons, ih, stateOf_wakeIoWaitersFor]
    by_cases hm : m = pid
    · subst hm
      have hready : ProcessState.ready.isIoBlocked = false := rfl
      cases s.stateOf m with
      | none => simp
      | some st => cases hst : st.isIoBlocked <;> simp [hst, hready]
    · simp [hm]

theorem stateOf_blockCurrent (hcur : s.current = some pid) (reason : BlockReason) :
    (s.blockCurrent reason).stateOf m =
      if m = pid then (s.stateOf m).map fun _ => .blocked reason else s.stateOf m := by
  rw [blockCurrent, modifyCurrent, hcur, stateOf]
  dsimp only
  rw [get_modify]
  rotate_left
  · exact fun _ => rfl
  split_ifs
  · rw [stateOf, Option.map_map, Option.map_map]
    rfl
  · rfl

end State

namespace TtyReaders
variable {r r' : TtyReaders} {P Q : Option ℕ → Prop} {pid : Pid} {kernel : State} {nowMs : ℕ}
  {byte : UInt8}

theorem mem_reading_withKernel : pid ∈ (r.withKernel kernel).reading ↔
    pid ∈ r.reading ∧ kernel.stateOf pid = r.kernel.stateOf pid := by
  simp [withKernel]

theorem AllParked.mono (h : r.AllParked P) (hPQ : ∀ deadlineMs, P deadlineMs → Q deadlineMs) :
    r.AllParked Q := by
  intro pid hpid
  obtain ⟨deadlineMs, hparked, hmem, hP⟩ := h pid hpid
  exact ⟨deadlineMs, hparked, hmem, hPQ _ hP⟩

theorem AllParked.withKernel (h : r.AllParked P) (kernel : State) :
    (r.withKernel kernel).AllParked P := by
  intro pid hpid
  obtain ⟨hreading, hsame⟩ := mem_reading_withKernel.1 hpid
  obtain ⟨deadlineMs, hparked, hmem, hP⟩ := h pid hreading
  exact ⟨deadlineMs, hsame.trans hparked, hmem, hP⟩

theorem AllParked.isIoBlocked (h : r.AllParked P) (hpid : pid ∈ r.reading) :
    ∃ st, r.kernel.stateOf pid = some st ∧ st.isIoBlocked = true := by
  obtain ⟨deadlineMs, hparked, -⟩ := h pid hpid
  refine ⟨_, hparked, ?_⟩
  cases deadlineMs <;> rfl

/-- Once nobody waits for input or output, nobody is in a read. -/
theorem AllParked.reading_withKernel (h : r.AllParked P)
    (hk : ∀ pid ∈ r.reading, ∀ st, kernel.stateOf pid = some st → st.isIoBlocked = false) :
    (r.withKernel kernel).reading = [] := by
  rw [eq_nil_iff_forall_not_mem]
  intro pid hpid
  obtain ⟨hreading, hsame⟩ := mem_reading_withKernel.1 hpid
  obtain ⟨st, hst, hb⟩ := h.isIoBlocked hreading
  have hno := hk pid hreading st (hsame.trans hst)
  rw [hb] at hno
  cases hno

theorem allParked_of_reading (h : r.reading = []) : r.AllParked P := by
  intro pid hpid
  rw [h] at hpid
  cases hpid

/-- In time for the terminal `t` is what `t` asks of the deadlines. -/
theorem AllParked.inTime_iff (h : r.AllParked P) (t : Tty) : r.AllParked t.InTime ↔
    ∀ limit, t.firstReadableMs = some limit → r.AllDueBy limit := by
  constructor
  · intro ht limit hlimit pid hpid
    obtain ⟨deadlineMs, hparked, -, hin⟩ := ht pid hpid
    obtain ⟨deadline, rfl, hle⟩ := Kernel.inTime_iff.1 hin limit hlimit
    exact ⟨deadline, hle, hparked⟩
  · intro hdue pid hpid
    obtain ⟨deadlineMs, hparked, hmem, -⟩ := h pid hpid
    refine ⟨deadlineMs, hparked, hmem, Kernel.inTime_iff.2 fun limit hlimit => ?_⟩
    obtain ⟨deadline, hle, hparked'⟩ := hdue limit hlimit pid hpid
    -- the state of the process says what its deadline is
    have hreason := Option.some.inj (hparked.symm.trans hparked')
    rw [ProcessState.blocked.injEq] at hreason
    exact ⟨deadline, parkReason_injective hreason, hle⟩

/-- Only the entry of `pid` is touched. -/
structure SparesOthers (pid : Pid) (r r' : TtyReaders) : Prop where
  kernel : r'.kernel = r.kernel
  reading : r'.reading = r.reading
  waiters : ∀ w ∈ r.waiters, w.pid ≠ pid → w ∈ r'.waiters

theorem AllParked.spares (h : r.AllParked P) (hs : SparesOthers pid r r')
    (hpid : pid ∉ r.reading) : r'.AllParked P := by
  intro q hq
  rw [hs.reading] at hq
  obtain ⟨deadlineMs, hparked, hmem, hP⟩ := h q hq
  refine ⟨deadlineMs, ?_, hs.waiters _ hmem ?_, hP⟩
  · rw [ParkedUntil, hs.kernel]
    exact hparked
  · rintro rfl
    exact hpid hq

theorem mem_swapRemove {α : Type} {l : List α} {i : ℕ} {a x : α} (ha : a ∈ l) (hx : l[i]? = some x)
    (hne : a ≠ x) : a ∈ swapRemove l i := by
  obtain ⟨j, hj, rfl⟩ := getElem_of_mem ha
  obtain ⟨hi, rfl⟩ := List.getElem?_eq_some_iff.1 hx
  have hij : i ≠ j := by
    rintro rfl
    exact hne rfl
  have hnil : l ≠ [] := by
    rintro rfl
    cases ha
  rw [swapRemove, getLast?_eq_some_getLast hnil]
  dsimp only
  rw [mem_iff_getElem]
  by_cases hlast : j = l.length - 1
  · -- the last element has moved to index `i`
    refine ⟨i, by simp; omega, ?_⟩
    simp [getLast_eq_getElem, hlast]
  · refine ⟨j, by simp; omega, ?_⟩
    simp [getElem_set_ne hij]

theorem sparesOthers_takeWaiter (r : TtyReaders) {p : TtyWaiter → Bool}
    (hp : ∀ w, p w → w.pid = pid) : SparesOthers pid r (r.takeWaiter p).2 := by
  rw [takeWaiter]
  split
  · exact ⟨rfl, rfl, fun _ hw _ => hw⟩
  · next i hi =>
    refine ⟨rfl, rfl, fun w hw hne => ?_⟩
    obtain ⟨hlt, hpi, -⟩ := findIdx?_eq_some_iff_getElem.1 hi
    refine mem_swapRemove hw (getElem?_eq_getElem hlt) ?_
    rintro rfl
    exact hne (hp _ hpi)

theorem tty_takeWaiter (r : TtyReaders) (p : TtyWaiter → Bool) :
    (r.takeWaiter p).2.tty = r.tty := by
  rw [takeWaiter]
  split <;> rfl

theorem park_spec (r : TtyReaders) (pid : Pid) (deadlineMs : Option ℕ) :
    SparesOthers pid r (r.park pid deadlineMs) ∧
      ⟨pid, deadlineMs⟩ ∈ (r.park pid deadlineMs).waiters ∧
      (r.park pid deadlineMs).tty = r.tty := by
  rw [park]
  split
  · next i hi =>
    obtain ⟨hlt, hpi, -⟩ := findIdx?_eq_some_iff_getElem.1 hi
    refine ⟨⟨rfl, rfl, fun w hw hne => ?_⟩, mem_set hlt _, rfl⟩
    obtain ⟨j, hj, rfl⟩ := getElem_of_mem hw
    have hij : i ≠ j := by
      rintro rfl
      exact hne (of_decide_eq_true hpi)
    rw [mem_iff_getElem]
    exact ⟨j, by simpa using hj, getElem_set_ne hij _⟩
  · exact ⟨⟨rfl, rfl, fun w hw _ => mem_append_left _ hw⟩, by simp, rfl⟩

theorem sparesOthers_tty (r : TtyReaders) (pid : Pid) (tty : Tty) :
    SparesOthers pid r { r with tty := tty } := ⟨rfl, rfl, fun _ hw _ => hw⟩

/-- The running process is parked. -/
theorem AllParked.parkCurrentUntil (h : r.AllParked P) (hpid : pid ∉ r.reading)
    (hcur : r.kernel.current = some pid) (hget : (r.kernel.stateOf pid).isSome)
    {deadlineMs : Option ℕ} (hP : P deadlineMs) :
    (r.parkCurrentUntil pid deadlineMs).AllParked P := by
  obtain ⟨hspares, hmem, -⟩ := park_spec r pid deadlineMs
  intro q hq
  rcases mem_cons.1 hq with rfl | hq
  · refine ⟨deadlineMs, ?_, hmem, hP⟩
    obtain ⟨st, hst⟩ := Option.isSome_iff_exists.1 hget
    change (r.kernel.blockCurrent _).stateOf q = _
    rw [stateOf_blockCurrent hcur, if_pos rfl, hst]
    rfl
  · exact (h.spares hspares hpid).withKernel _ q hq

/-- One pass of a process that is not blocked. It has an answer, or is parked in time. -/
theorem AllParked.readPass (h : r.AllParked P) (hpid : pid ∉ r.reading)
    (hcur : r.kernel.current = some pid) (hget : (r.kernel.stateOf pid).isSome) (nowMs maxLen : ℕ)
    (nonblocking : Bool) :
    (∀ now x, (r.readPass pid nowMs maxLen nonblocking).2.tty.readable now x →
      r.tty.readable now x) ∧
    (r.readPass pid nowMs maxLen nonblocking).2.AllParked fun deadlineMs =>
      P deadlineMs ∨ (r.readPass pid nowMs maxLen nonblocking).2.tty.InTime deadlineMs := by
  have htake : SparesOthers pid r (r.expiredWaiter pid nowMs).2 :=
    sparesOthers_takeWaiter r (by simp +contextual)
  have htty : (r.expiredWaiter pid nowMs).2.tty = r.tty := tty_takeWaiter r _
  rw [TtyReaders.readPass]
  generalize r.expiredWaiter pid nowMs = taken at htake htty ⊢
  obtain ⟨timeoutExpired, r₁⟩ := taken
  dsimp only at htake htty ⊢
  have h₁ : r₁.AllParked P := h.spares htake hpid
  rw [← htake.reading] at hpid
  split
  · next line tty hread =>
    have hclear : SparesOthers pid { r₁ with tty := tty } ({ r₁ with tty := tty }.clearWaiter pid) :=
      sparesOthers_takeWaiter _ (by simp)
    refine ⟨fun now x hx => ?_, ?_⟩
    · rw [htty] at hread
      refine readable_of_read hread ?_
      rwa [clearWaiter, tty_takeWaiter] at hx
    · have hP := (h₁.spares (sparesOthers_tty r₁ pid tty) hpid).spares hclear hpid
      exact hP.mono fun _ => .inl
  · next tty hread =>
    obtain rfl := eq_of_read_none hread
    cases nonblocking with
    | true => exact ⟨fun _ _ hx => htty ▸ hx, h₁.mono fun _ => .inl⟩
    | false =>
      have htty' := (park_spec r₁ pid (r₁.tty.readDeadlineMs nowMs)).2.2
      refine ⟨fun _ _ hx => ?_, ?_⟩
      · rw [← htty, ← htty']
        exact hx
      · rw [← htake.kernel] at hcur hget
        have hin : (r₁.park pid (r₁.tty.readDeadlineMs nowMs)).tty.InTime
            (r₁.tty.readDeadlineMs nowMs) := by
          rw [htty']
          exact inTime_readDeadlineMs (congrArg Prod.fst hread)
        exact (h₁.mono fun _ => .inl).parkCurrentUntil hpid hcur hget (.inr hin)

theorem AllParked.read (h : r.AllParked P) (nowMs maxLen : ℕ) (nonblocking : Bool) :
    (∀ now x, (r.read nowMs maxLen nonblocking).2.tty.readable now x → r.tty.readable now x) ∧
    (r.read nowMs maxLen nonblocking).2.AllParked fun deadlineMs =>
      P deadlineMs ∨ (r.read nowMs maxLen nonblocking).2.tty.InTime deadlineMs := by
  have hstay : (∀ now x, r.tty.readable now x → r.tty.readable now x) ∧ r.AllParked
      fun deadlineMs => P deadlineMs ∨ r.tty.InTime deadlineMs :=
    ⟨fun _ _ hx => hx, h.mono fun _ => .inl⟩
  rw [TtyReaders.read]
  cases hp : r.kernel.currentProcess with
  | none => exact hstay
  | some p =>
    dsimp only
    split_ifs with hb
    · exact hstay
    obtain ⟨pid, hcur, hget⟩ := Option.bind_eq_some_iff.1 hp
    obtain rfl := pid_of_get hget
    refine h.readPass ?_ hcur (by simp [stateOf, hget]) nowMs maxLen nonblocking
    -- whoever is in a read is blocked
    intro hreading
    obtain ⟨deadlineMs, hparked, -⟩ := h _ hreading
    rw [ParkedUntil, stateOf, hget] at hparked
    have hst : p.state = _ := Option.some.inj hparked
    exact hb (by rw [hst]; rfl)

/-- A byte that drains the waiters leaves nobody in a read. -/
theorem AllParked.reading_drained (h : r.AllParked P) (tty : Tty) :
    ({ r with tty := tty, waiters := [] }.withKernel
      ((r.waiters.map TtyWaiter.pid).foldl wakeIoWaitersFor r.kernel)).reading = [] := by
  refine AllParked.reading_withKernel (P := P) (r := r) h fun pid hpid st hst => ?_
  obtain ⟨deadlineMs, -, hmem, -⟩ := h pid hpid
  rw [stateOf_foldl_wakeIoWaitersFor, if_pos (mem_map_of_mem hmem)] at hst
  obtain ⟨st', -, rfl⟩ := Option.map_eq_some_iff.1 hst
  split_ifs with hb
  · rfl
  · simpa using hb

theorem AllParked.inputByte (h : r.AllParked P) (byte : UInt8) (nowMs : ℕ) :
    (r.inputByte byte nowMs).2.AllParked P := by
  rw [TtyReaders.inputByte]
  split
  · exact AllParked.withKernel (r := { r with tty := _ }) h _
  · split_ifs
    · exact allParked_of_reading (h.reading_drained _)
    · exact h

theorem woken_inputByte_iff (h : r.Woken) (byte : UInt8) (nowMs : ℕ) :
    (r.inputByte byte nowMs).2.Woken ↔ (TtyEvent.inputByte byte).Allowed r nowMs := by
  rw [TtyReaders.inputByte]
  cases hi : r.tty.input byte nowMs with
  | mk signal tty =>
    cases signal with
    | some signal =>
      obtain rfl := eq_of_input_some hi
      refine iff_of_true (AllParked.withKernel (r := r) h _) fun hstarts => ?_
      have hnone := hstarts.2.2.2.2
      rw [← input_fst _ _ nowMs, hi] at hnone
      cases hnone
    | none =>
      dsimp only
      split_ifs with hd
      · refine iff_of_true (allParked_of_reading (h.reading_drained _)) fun hstarts => ?_
        rw [(hstarts.input hi).1] at hd
        cases hd
      · by_cases hstarts : r.tty.StartsTimer byte
        · have hfirst := (hstarts.input hi).2
          refine (h.inTime_iff tty).trans ?_
          rw [hfirst]
          simp [TtyEvent.Allowed, hstarts]
        · refine iff_of_true (h.mono fun _ hin => hin.mono fun _ _ hx => ?_)
            fun hs => absurd hs hstarts
          refine readable_of_input hi (by simpa using hd) hx fun hc hl hmin => ?_
          by_contra htime
          exact hstarts ⟨hc, hl, hmin, htime, by rw [← input_fst _ _ nowMs, hi]⟩

/-- A byte takes the entry of a parked process away exactly if it wakes the process. -/
theorem AllParked.inputByte_drains (h : r.AllParked P) (hpid : pid ∈ r.reading) (byte : UInt8)
    (nowMs : ℕ) :
    (pid ∈ (r.inputByte byte nowMs).1 ↔
      ∀ deadlineMs, ⟨pid, deadlineMs⟩ ∉ (r.inputByte byte nowMs).2.waiters) ∧
    (pid ∈ (r.inputByte byte nowMs).1 →
      (r.inputByte byte nowMs).2.kernel.stateOf pid = some .ready) := by
  obtain ⟨deadlineMs, hparked, hmem, -⟩ := h pid hpid
  have hdrained : pid ∈ r.waiters.map TtyWaiter.pid := mem_map_of_mem hmem
  have hkept : (pid ∈ ([] : List Pid) ↔ ∀ deadlineMs, ⟨pid, deadlineMs⟩ ∉ r.waiters) :=
    iff_of_false not_mem_nil fun hno => hno deadlineMs hmem
  rw [TtyReaders.inputByte]
  split
  · exact ⟨hkept, fun hno => absurd hno not_mem_nil⟩
  · split_ifs
    · refine ⟨iff_of_true hdrained fun _ => not_mem_nil, fun _ => ?_⟩
      change (foldl wakeIoWaitersFor r.kernel (r.waiters.map TtyWaiter.pid)).stateOf pid = _
      rw [stateOf_foldl_wakeIoWaitersFor, if_pos hdrained, hparked]
      cases deadlineMs <;> rfl
    · exact ⟨hkept, fun hno => absurd hno not_mem_nil⟩

/-- The keyboard interrupt wakes every reader. -/
theorem AllParked.reading_keyboardInterrupt (h : r.AllParked P) (bytes : List UInt8) (nowMs : ℕ) :
    (r.keyboardInterrupt bytes nowMs).reading = [] := by
  have hbytes : (bytes.foldl (fun r byte => (r.inputByte byte nowMs).2) r).AllParked P :=
    List.foldlRecOn (motive := fun r : TtyReaders => r.AllParked P) bytes _ h
      fun r hr byte _ => hr.inputByte byte nowMs
  refine hbytes.reading_withKernel fun pid _ st hst => ?_
  obtain ⟨q, hq, rfl⟩ := Option.map_eq_some_iff.1 hst
  exact not_isIoBlocked_wakeIoWaiters _ hq

end TtyReaders

namespace TtyEvent
open TtyReaders
variable {r : TtyReaders} {P : Option ℕ → Prop}

/-- Every process in a read stays registered, whatever happens. -/
theorem allParked_exec (h : r.AllParked fun _ => True) (event : TtyEvent) (nowMs : ℕ) :
    (event.exec r nowMs).AllParked fun _ => True := by
  cases event with
  | inputByte byte => exact h.inputByte byte nowMs
  | keyboard bytes => exact allParked_of_reading (h.reading_keyboardInterrupt bytes nowMs)
  | read maxLen nonblocking => exact (h.read nowMs maxLen nonblocking).2.mono fun _ _ => trivial
  | setTermios termios => exact h
  | setForegroundPgrp pgrp => exact h
  | kernel event => exact h.withKernel _

/-- An event keeps the readers in time exactly if it is allowed. -/
theorem woken_exec_iff (h : r.Woken) (event : TtyEvent) (nowMs : ℕ) :
    (event.exec r nowMs).Woken ↔ event.Allowed r nowMs := by
  cases event with
  | inputByte byte => exact woken_inputByte_iff h byte nowMs
  | keyboard bytes =>
    exact iff_of_true (allParked_of_reading (h.reading_keyboardInterrupt bytes nowMs)) trivial
  | read maxLen nonblocking =>
    obtain ⟨hmono, hparked⟩ := h.read nowMs maxLen nonblocking
    refine iff_of_true (hparked.mono fun deadlineMs hin => ?_) trivial
    exact hin.elim (fun hold => hold.mono hmono) id
  | setTermios termios => exact h.inTime_iff _
  | setForegroundPgrp pgrp => exact iff_of_true h trivial
  | kernel event => exact iff_of_true (h.withKernel _) trivial

theorem allParked_run (h : r.AllParked fun _ => True) (events : List (ℕ × TtyEvent)) :
    (run r events).AllParked fun _ => True :=
  List.foldlRecOn (motive := fun r : TtyReaders => r.AllParked fun _ => True) events _ h
    fun _ hr e _ => allParked_exec hr e.2 e.1

theorem woken_run_iff (h : r.Woken) (events : List (ℕ × TtyEvent)) :
    (∀ pre, pre <+: events → (run r pre).Woken) ↔ AllAllowed r events := by
  induction events generalizing r with
  | nil =>
    refine iff_of_true (fun pre hpre => ?_) trivial
    rw [prefix_nil.1 hpre]
    exact h
  | cons e events ih =>
    constructor
    · intro hall
      have hnext : (e.2.exec r e.1).Woken := hall [e] (by simp)
      refine ⟨(woken_exec_iff h e.2 e.1).1 hnext, (ih hnext).1 fun pre hpre => ?_⟩
      exact hall (e :: pre) (cons_prefix_cons.2 ⟨rfl, hpre⟩)
    · rintro ⟨hallowed, hrest⟩ pre hpre
      cases pre with
      | nil => exact h
      | cons d pre =>
        obtain ⟨rfl, hrun⟩ := cons_prefix_cons.1 hpre
        exact (ih ((woken_exec_iff h d.2 d.1).2 hallowed)).2 hrest pre hrun

end TtyEvent

/-- Every process in a read of the terminal has its entry, and a byte takes the entry away exactly
if it wakes the process. The deadlines of the entries wake every reader in time, throughout a run,
exactly if the events are allowed where they happen. -/
theorem tty_readers_woken_iff (kernel : State) (events : List (ℕ × TtyEvent)) :
    ((TtyEvent.run (.start kernel) events).AllParked fun _ => True) ∧
    (∀ byte nowMs, ∀ pid ∈ (TtyEvent.run (.start kernel) events).reading,
      (pid ∈ ((TtyEvent.run (.start kernel) events).inputByte byte nowMs).1 ↔ ∀ deadlineMs,
        ⟨pid, deadlineMs⟩ ∉ ((TtyEvent.run (.start kernel) events).inputByte byte nowMs).2.waiters) ∧
      (pid ∈ ((TtyEvent.run (.start kernel) events).inputByte byte nowMs).1 →
        ((TtyEvent.run (.start kernel) events).inputByte byte nowMs).2.kernel.stateOf pid =
          some .ready)) ∧
    ((∀ pre, pre <+: events → (TtyEvent.run (.start kernel) pre).Woken) ↔
      TtyEvent.AllAllowed (.start kernel) events) := by
  have hstart : ∀ P, (TtyReaders.start kernel).AllParked P :=
    fun P => TtyReaders.allParked_of_reading rfl
  have hrun := TtyEvent.allParked_run (hstart _) events
  refine ⟨hrun, fun byte nowMs pid hpid => ?_, TtyEvent.woken_run_iff (hstart _) events⟩
  exact hrun.inputByte_drains hpid byte nowMs

/-- Raw mode with these values for VMIN and VTIME. -/
def rawTermios (minLen timeDs : UInt8) : Termios :=
  let raw := Termios.default.setMode .raw
  { raw with cc := update (update raw.cc vMin minLen) vTime timeDs }

/-- Init waits for two bytes. -/
def twoByteReader : List (ℕ × TtyEvent) :=
  [(0, .setTermios (rawTermios 2 0)), (0, .kernel (.enter 1)), (0, .read 80 false),
    (5, .inputByte 97), (6, .inputByte 98), (6, .kernel (.enter 1)), (6, .read 80 false)]

/-- The second byte wakes it. -/
theorem tty_readers_woken_iff_twoByteReader :
    (∀ pre, pre <+: twoByteReader → (TtyEvent.run (.start booted) pre).Woken) ∧
      (TtyEvent.run (.start booted) (twoByteReader.take 4)).reading = [1] ∧
      ((TtyEvent.run (.start booted) (twoByteReader.take 4)).inputByte 98 6).1 = [1] ∧
      ((TtyEvent.run (.start booted) (twoByteReader.take 6)).read 6 80 false).1 =
        some [97, 98] := by
  refine ⟨(tty_readers_woken_iff _ twoByteReader).2.2.2 ?_, by decide +kernel, by decide +kernel,
    by decide +kernel⟩
  have htime : ∀ r : TtyReaders, (r.tty.termios.cc vTime).toNat = 0 → ∀ byte nowMs,
      (TtyEvent.inputByte byte).Allowed r nowMs :=
    fun r hr byte nowMs hstarts => absurd hr hstarts.2.2.2.1
  refine ⟨fun _ _ pid hpid => absurd hpid not_mem_nil, trivial, trivial, htime _ ?_ _ _,
    htime _ ?_ _ _, trivial, trivial, trivial⟩ <;> decide +kernel

/-- Init waits for twenty bytes, a tenth of a second after the first. An arrow key is pressed and
held: it gives three bytes, which are read in time, and then again three bytes three times. -/
def heldKey : List (ℕ × TtyEvent) :=
  [(0, .setTermios (rawTermios 20 1)), (0, .kernel (.enter 1)), (0, .read 80 false),
    (0, .keyboard [27, 91, 68]), (0, .kernel (.enter 1)), (0, .read 80 false),
    (100, .kernel (.tick 100)), (100, .kernel (.enter 1)), (100, .read 80 false),
    (100, .read 80 false), (180, .inputByte 27), (180, .inputByte 91), (180, .inputByte 68),
    (225, .inputByte 27), (225, .inputByte 91), (225, .inputByte 68),
    (270, .inputByte 27), (270, .inputByte 91), (270, .inputByte 68)]

/-- The reader is parked without a deadline, though its read would return nine bytes at 280 ms. -/
theorem tty_reader_not_woken :
    (TtyEvent.run (.start booted) heldKey).reading = [1] ∧
      (TtyEvent.run (.start booted) heldKey).ParkedUntil 1 none ∧
      ((TtyEvent.run (.start booted) heldKey).tty.readAvailableAt 280 false 80).1 =
        some [27, 91, 68, 27, 91, 68, 27, 91, 68] ∧
      ¬ (TtyEvent.run (.start booted) heldKey).Woken := by
  have hreading : (TtyEvent.run (.start booted) heldKey).reading = [1] := by decide +kernel
  have hparked : (TtyEvent.run (.start booted) heldKey).kernel.stateOf 1 =
      some (.blocked .waitIo) := by decide +kernel
  have hread : ((TtyEvent.run (.start booted) heldKey).tty.readAvailableAt 280 false 80).1 =
      some [27, 91, 68, 27, 91, 68, 27, 91, 68] := by decide +kernel
  refine ⟨hreading, hparked, hread, fun h => ?_⟩
  obtain ⟨deadlineMs, hparked', -, hin⟩ := h 1 (by simp [hreading])
  have hreason := Option.some.inj (hparked'.symm.trans hparked)
  rw [ProcessState.blocked.injEq] at hreason
  obtain rfl : deadlineMs = none := parkReason_injective hreason
  obtain ⟨deadline, hnone, -⟩ := hin 280 80 (by decide) (by simp [deadlineExpired, hread])
  cases hnone

end Ristux.Kernel
