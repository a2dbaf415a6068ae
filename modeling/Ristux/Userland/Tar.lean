import Ristux.Lib.Within
import Ristux.Userland.Basic

-- `walk_archive` of `userland/src/bin/tar.rs` with what it calls. The archive is the bytes that
-- are still to be read from its descriptor.

namespace Ristux.Userland.Tar
open List Option
open Ristux.Linker (Bytes)
open Ristux.Lib Ristux.Lib.Proc

def block : ℕ := 512
def oRdonly : ℕ := 0
def oWronly : ℕ := 1
def oCreat : ℕ := 0o100
def oTrunc : ℕ := 0o1000

inductive Call where
  | open (path : Bytes) (flags mode : ℕ)
  | mkdir (path : Bytes) (mode : ℕ)
  | chmod (path : Bytes) (mode : ℕ)
  | write (fd : ℤ) (bytes : Bytes)
  | close (fd : ℤ)
  deriving DecidableEq, Repr

/-- The path a call hands to the kernel. -/
def Call.path? : Call → Option Bytes
  | .open path _ _ => some path
  | .mkdir path _ => some path
  | .chmod path _ => some path
  | .write _ _ => none
  | .close _ => none

structure World where
  input : Bytes
  calls : List Call
  deriving DecidableEq, Repr

abbrev Walk := Proc World ℤ

def parseOctalLoop : ℕ → Bytes → Option ℕ
  | value, [] => some value
  | value, byte :: field =>
    if byte = 0 ∨ byte = space then some value
    else if ¬ (0x30 ≤ byte ∧ byte ≤ 0x37) then none
    else (pushDigit 8 value (byte - 0x30).toNat).bind fun value => parseOctalLoop value field

def parseOctal (field : Bytes) : Option ℕ := parseOctalLoop 0 field

def safeArchivePath (path : Bytes) : Bool :=
  if path.isEmpty || path.head? == some slash then false
  else (path.splitOn slash).all fun part => !(part.isEmpty || part == text "." || part == text "..")

def trimTrailingSlash (path : Bytes) : Bytes :=
  if 1 < path.length ∧ path.getLast? = some slash then trimTrailingSlash path.dropLast else path
termination_by path.length
decreasing_by
  rw [length_dropLast]
  omega

def nameFromHeader (header : Bytes) : Option Bytes :=
  let name := trimTrailingSlash ((header.take 100).takeWhile (· ≠ 0))
  if safeArchivePath name then some name else none

/-- `header[from..to]`. -/
def field (header : Bytes) (start stop : ℕ) : Bytes := (header.drop start).take (stop - start)

def validChecksum (header : Bytes) : Bool :=
  let stored := (parseOctal (field header 148 156)).getD usizeMax
  let copy := header.take 148 ++ replicate 8 space ++ header.drop 156
  stored == (copy.map UInt8.toNat).sum

def paddedSize (size : ℕ) : Option ℕ :=
  if size + (block - 1) ≤ usizeMax then some ((size + (block - 1)) / block * block) else none

section
variable (answer : List Call → ℤ)

def sys (call : Call) : Walk ℤ := fun w =>
  (.ok (answer (w.calls ++ [call])), { w with calls := w.calls ++ [call] })

def writeAll (fd : ℤ) (bytes : Bytes) : Walk Bool :=
  if bytes.isEmpty then pure true
  else do
    let written ← sys answer (.write fd bytes)
    pure (0 < written)

def printErr (message path : Bytes) : Walk Unit := do
  let _ ← sys answer (.write 2 (text "tar: "))
  let _ ← sys answer (.write 2 message)
  let _ ← sys answer (.write 2 path)
  let _ ← sys answer (.write 2 (text "\n"))

def closeIfOwned (fd : ℤ) (owned : Bool) : Walk Unit :=
  if owned then do
    let _ ← sys answer (.close fd)
  else pure ()

def mkdirPath (path : Bytes) (mode : ℕ) : Walk Bool := do
  let r ← sys answer (.mkdir path mode)
  pure (0 ≤ r || r == -17)

def chmodPath (path : Bytes) (mode : ℕ) : Walk Unit := do
  let _ ← sys answer (.chmod path mode)

/-- The loop of `ensure_parent_dirs` with `cur` and the parts to come. -/
def parentLoop (path : Bytes) : Bytes → List Bytes → Walk Bool
  | _, [] => pure true
  | cur, part :: parts =>
    let cur := if cur.isEmpty then part else cur ++ slash :: part
    if cur.length < path.length then do
      let made ← mkdirPath answer cur 0o755
      if made then parentLoop path cur parts else pure false
    else parentLoop path cur parts

def ensureParentDirs (path : Bytes) : Walk Bool :=
  parentLoop answer path [] ((path.splitOn slash).takeWhile fun part => !part.isEmpty)

def readExact (n : ℕ) : Walk (Option Bytes) := fun w =>
  if n ≤ w.input.length then
    (.ok (some (w.input.take n)), { w with input := w.input.drop n })
  else (.ok none, { w with input := [] })

def skipBytes (count : ℕ) : Walk Bool :=
  if count = 0 then pure true
  else do
    match ← readExact (min count block) with
    | none => pure false
    | some _ => skipBytes (count - min count block)
termination_by count
decreasing_by
  simp only [block]
  omega

/-- The copy loop of `walk_archive`: `while remaining > 0`. -/
def copyBytes (out : ℤ) (remaining : ℕ) : Walk Bool :=
  if remaining = 0 then pure true
  else do
    match ← readExact (min remaining block) with
    | none => pure false
    | some buf =>
      let written ← writeAll answer out buf
      if written then copyBytes out (remaining - min remaining block) else pure false
termination_by remaining
decreasing_by
  simp only [block]
  omega

/-- `print_err`, `close_if_owned` and `return 1`. -/
def giveUp {α : Type} (fd : ℤ) (owned : Bool) (message path : Bytes) : Walk α := do
  printErr answer message path
  closeIfOwned answer fd owned
  fail 1

def skipOrGiveUp (fd : ℤ) (owned : Bool) (archive : Bytes) (count : ℕ) : Walk Unit := do
  let skipped ← skipBytes count
  if skipped then pure () else giveUp answer fd owned (text "truncated archive ") archive

/-- A member that is a regular file. -/
def extractFile (fd : ℤ) (owned : Bool) (archive name : Bytes) (size padded mode : ℕ) :
    Walk Unit := do
  let parents ← ensureParentDirs answer name
  if !parents then giveUp answer fd owned (text "cannot create parent for ") name
  else
    let out ← sys answer (.open name (oWronly + oCreat + oTrunc) mode)
    if out < 0 then giveUp answer fd owned (text "cannot extract ") name
    else
      let copied ← copyBytes answer out size
      if !copied then do
        printErr answer (text "extract failed ") name
        let _ ← sys answer (.close out)
        closeIfOwned answer fd owned
        fail 1
      else
        let _ ← sys answer (.close out)
        chmodPath answer name mode
        if size < padded then skipOrGiveUp answer fd owned archive (padded - size) else pure ()

/-- The rest of the loop's body after the name and the size are known. -/
def walkNamed (fd : ℤ) (owned : Bool) (archive : Bytes) (extract : Bool) (header name : Bytes)
    (size padded : ℕ) : Walk Unit :=
  let mode := (parseOctal (field header 100 108)).getD 0o644 % 2 ^ 32
  let typeflag := header.getD 156 0
  if !extract then do
    let _ ← sys answer (.write 1 name)
    let _ ← sys answer (.write 1 (text "\n"))
    skipOrGiveUp answer fd owned archive padded
  else if typeflag = 0x35 then do
    let made ← mkdirPath answer name mode
    if !made then giveUp answer fd owned (text "cannot mkdir ") name
    else skipOrGiveUp answer fd owned archive padded
  else if typeflag ≠ 0 ∧ typeflag ≠ 0x30 then skipOrGiveUp answer fd owned archive padded
  else extractFile answer fd owned archive name size padded mode

/-- The loop's body after a header was read that is not all zero. -/
def walkHeader (fd : ℤ) (owned : Bool) (archive : Bytes) (extract : Bool) (header : Bytes) :
    Walk Unit :=
  if !validChecksum header then giveUp answer fd owned (text "bad checksum in ") archive
  else
    match nameFromHeader header with
    | none => do
      let _ ← sys answer (.write 2 (text "tar: unsafe archive path\n"))
      closeIfOwned answer fd owned
      fail 1
    | some name =>
      let size := (parseOctal (field header 124 136)).getD usizeMax
      match paddedSize size with
      | none => giveUp answer fd owned (text "bad size in ") archive
      | some padded => walkNamed answer fd owned archive extract header name size padded

/-- One turn of the loop; `false` leaves it. -/
def walkMember (fd : ℤ) (owned : Bool) (archive : Bytes) (extract : Bool) : Walk Bool := do
  match ← readExact block with
  | none => giveUp answer fd owned (text "truncated archive ") archive
  | some header =>
    if header.all (· == 0) then pure false
    else do
      walkHeader answer fd owned archive extract header
      pure true

end

/-- No call but those of `P` is added, and nothing is put back into the input. -/
structure Grows (P : Call → Prop) (w w' : World) : Prop where
  calls : ∀ c ∈ w'.calls, c ∈ w.calls ∨ P c
  input : w'.input.length ≤ w.input.length

instance (P : Call → Prop) : Std.Refl (Grows P) where
  refl _ := ⟨fun _ hc => .inl hc, Nat.le_refl _⟩

instance (P : Call → Prop) : IsTrans World (Grows P) where
  trans _ _ _ h h' :=
    ⟨fun c hc => (h'.calls c hc).elim (h.calls c) .inr, Nat.le_trans h'.input h.input⟩

section
variable {P : Call → Prop}

theorem sys_within (h : P call) : Within (Grows P) (sys answer call) := by
  intro w
  refine ⟨fun c hc => ?_, Nat.le_refl _⟩
  rcases mem_append.1 hc with hc | hc
  · exact .inl hc
  · exact .inr (mem_singleton.1 hc ▸ h)

theorem readExact_within (n : ℕ) : Within (Grows P) (readExact n) := by
  intro w
  unfold readExact
  split
  all_goals exact ⟨fun _ hc => .inl hc, by simp⟩

/-- A call on no path. -/
def Quiet (P : Call → Prop) : Prop := ∀ c : Call, c.path? = none → P c

theorem writeAll_within (hP : Quiet P) : Within (Grows P) (writeAll answer fd bytes) := by
  apply within_ite
  · exact fun _ => within_pure _
  · exact fun _ => (sys_within (hP _ rfl)).bind fun _ => within_pure _

theorem printErr_within (hP : Quiet P) : Within (Grows P) (printErr answer message path) := by
  refine (sys_within (hP _ rfl)).bind fun _ => (sys_within (hP _ rfl)).bind fun _ => ?_
  exact (sys_within (hP _ rfl)).bind fun _ => (sys_within (hP _ rfl)).bind fun _ => within_pure _

theorem closeIfOwned_within (hP : Quiet P) : Within (Grows P) (closeIfOwned answer fd owned) := by
  apply within_ite
  · exact fun _ => (sys_within (hP _ rfl)).bind fun _ => within_pure _
  · exact fun _ => within_pure _

theorem giveUp_within (hP : Quiet P) :
    Within (Grows P) (giveUp answer fd owned message path : Walk α) := by
  refine (printErr_within hP).bind fun _ => ?_
  exact (closeIfOwned_within hP).bind fun _ => within_fail _

theorem giveUp_ne_ok : giveUp answer fd owned message path w ≠ (.ok a, w') := by
  intro h
  obtain ⟨_, _, _, h⟩ := bind_eq_ok.1 h
  obtain ⟨_, _, _, h⟩ := bind_eq_ok.1 h
  cases h

theorem skipBytes_within (count : ℕ) : Within (Grows P) (skipBytes count) := by
  induction count using skipBytes.induct with
  | case1 =>
    rw [skipBytes, if_pos rfl]
    exact within_pure _
  | case2 count hne ih =>
    rw [skipBytes, if_neg hne]
    refine (readExact_within _).bind fun buf => ?_
    cases buf with
    | none => exact within_pure _
    | some _ => exact ih

theorem copyBytes_within (hP : Quiet P) : Within (Grows P) (copyBytes answer fd remaining) := by
  induction remaining using copyBytes.induct with
  | case1 =>
    rw [copyBytes, if_pos rfl]
    exact within_pure _
  | case2 remaining hne ih =>
    rw [copyBytes, if_neg hne]
    refine (readExact_within _).bind fun buf => ?_
    cases buf with
    | none => exact within_pure _
    | some buf =>
      refine (writeAll_within hP).bind fun written => ?_
      exact within_ite (fun _ => ih) fun _ => within_pure _

theorem skipOrGiveUp_within (hP : Quiet P) (count : ℕ) :
    Within (Grows P) (skipOrGiveUp answer fd owned archive count) := by
  refine (skipBytes_within _).bind fun skipped => ?_
  exact within_ite (fun _ => within_pure _) fun _ => giveUp_within hP

end

/-- Non-empty, relative, without a NUL, an empty part, `.` or `..`. -/
structure SafePath (path : Bytes) : Prop where
  nonempty : path ≠ []
  relative : path.head? ≠ some slash
  noNul : 0 ∉ path
  parts : ∀ part ∈ path.splitOn slash, part ≠ [] ∧ part ≠ text "." ∧ part ≠ text ".."

/-- What precedes a slash of a safe path is one too. -/
theorem SafePath.parent (h : SafePath (dir ++ slash :: rest)) : SafePath dir := by
  have hsplit : (dir ++ slash :: rest).splitOn slash = dir.splitOn slash ++ rest.splitOn slash :=
    splitOn_append_cons_self _ _
  have hparts : ∀ part ∈ dir.splitOn slash, part ≠ [] ∧ part ≠ text "." ∧ part ≠ text ".." := by
    intro part hpart
    apply h.parts
    rw [hsplit]
    exact mem_append_left _ hpart
  have hne : dir ≠ [] := by
    rintro rfl
    exact (hparts [] (by simp)).1 rfl
  refine ⟨hne, ?_, fun h0 => h.noNul (mem_append_left _ h0), hparts⟩
  have := h.relative
  rwa [head?_append_of_ne_nil _ hne] at this

theorem trimTrailingSlash_sublist (path : Bytes) : (trimTrailingSlash path).Sublist path := by
  induction path using trimTrailingSlash.induct with
  | case1 path h ih =>
    rw [trimTrailingSlash, if_pos h]
    exact ih.trans (dropLast_sublist _)
  | case2 path h =>
    rw [trimTrailingSlash, if_neg h]

theorem nameFromHeader_safe (h : nameFromHeader header = some name) : SafePath name := by
  simp only [nameFromHeader, ite_none_right_eq_some, some.injEq] at h
  obtain ⟨hsafe, rfl⟩ := h
  generalize hname : trimTrailingSlash ((header.take 100).takeWhile (· ≠ 0)) = name at hsafe
  have hnul : 0 ∉ name := by
    intro h0
    rw [← hname] at h0
    have := all_eq_true.1 all_takeWhile 0 ((trimTrailingSlash_sublist _).mem h0)
    simp at this
  unfold safeArchivePath at hsafe
  split at hsafe
  · cases hsafe
  rename_i hcond
  simp only [Bool.or_eq_true, List.isEmpty_iff, beq_iff_eq, not_or] at hcond
  refine ⟨hcond.1, hcond.2, hnul, fun part hpart => ?_⟩
  have := all_eq_true.1 hsafe part hpart
  simp only [Bool.not_eq_true', Bool.or_eq_false_iff, beq_eq_false_iff_ne,
    isEmpty_eq_false_iff] at this
  exact ⟨this.1.1, this.1.2, this.2⟩

/-- A call that unpacking the member `name` may make: on its own path, or the `mkdir` of a
directory above it. -/
inductive For (name : Bytes) : Call → Prop
  | file (flags mode : ℕ) : For name (.open name flags mode)
  | directory (mode : ℕ) : For name (.mkdir name mode)
  | bits (mode : ℕ) : For name (.chmod name mode)
  | parent {dir rest : Bytes} : name = dir ++ slash :: rest → For name (.mkdir dir 0o755)
  | quiet {c : Call} : c.path? = none → For name c

theorem quiet_for (name : Bytes) : Quiet (For name) := fun _ h => .quiet h

/-- The `mkdir` calls of `ensure_parent_dirs`. -/
def Above (path : Bytes) (c : Call) : Prop :=
  ∃ dir rest, path = dir ++ slash :: rest ∧ c = .mkdir dir 0o755

theorem intercalate_slash (part : Bytes) (parts : List Bytes) :
    [slash].intercalate (part :: parts) = part ++ parts.flatMap (slash :: ·) := by
  induction parts generalizing part with
  | nil => simp
  | cons next parts ih =>
    rw [intercalate_cons_cons, ih]
    simp

section
variable {owned extract : Bool}

/-- The loop puts the path together part by part, and a slash follows what is shorter than it. -/
theorem parentLoop_within (hparts : ∀ part ∈ parts, part ≠ []) (cur : Bytes)
    (h : ∀ part rest, parts = part :: rest →
      path = (if cur.isEmpty then part else cur ++ slash :: part) ++ rest.flatMap (slash :: ·)) :
    Within (Grows (Above path)) (parentLoop answer path cur parts) := by
  induction parts generalizing cur with
  | nil => exact within_pure _
  | cons part parts ih =>
    have hpath := h part parts rfl
    simp only [parentLoop]
    generalize hcur : (if cur.isEmpty then part else cur ++ slash :: part) = cur' at hpath ⊢
    have hne : cur'.isEmpty = false := by
      have := hparts part mem_cons_self
      rw [← hcur, isEmpty_eq_false_iff]
      split
      · exact this
      · simp
    have hrest : Within (Grows (Above path)) (parentLoop answer path cur' parts) := by
      apply ih (forall_mem_cons.1 hparts).2
      rintro next rest rfl
      rw [hne, hpath]
      simp
    apply within_ite
    · intro hlt
      refine Within.bind ?_ fun made => within_ite (fun _ => hrest) fun _ => within_pure _
      refine Within.bind (sys_within ?_) fun _ => within_pure _
      cases parts with
      | nil =>
        rw [hpath] at hlt
        simp at hlt
      | cons next parts =>
        exact ⟨cur', next ++ parts.flatMap (slash :: ·), by simpa using hpath, rfl⟩
    · exact fun _ => hrest

theorem ensureParentDirs_within (h : SafePath path) :
    Within (Grows (Above path)) (ensureParentDirs answer path) := by
  have hparts : ∀ part ∈ path.splitOn slash, part ≠ [] := fun part hp => (h.parts part hp).1
  have htake : (path.splitOn slash).takeWhile (fun part => !part.isEmpty) = path.splitOn slash := by
    rw [takeWhile_eq_self_iff]
    intro part hp
    simpa using hparts part hp
  rw [ensureParentDirs, htake]
  apply parentLoop_within hparts
  intro part rest hsplit
  have hjoin : [slash].intercalate (path.splitOn slash) = path := intercalate_splitOn _
  rw [hsplit, intercalate_slash] at hjoin
  exact hjoin.symm

theorem walkNamed_within (h : SafePath name) : Within (Grows (For name))
      (walkNamed answer fd owned archive extract header name size padded) := by
  have hq := quiet_for name
  have hskip : ∀ count, Within (Grows (For name)) (skipOrGiveUp answer fd owned archive count) :=
    skipOrGiveUp_within hq
  apply within_ite
  · intro _
    refine (sys_within (.quiet rfl)).bind fun _ => ?_
    exact (sys_within (.quiet rfl)).bind fun _ => hskip _
  intro _
  apply within_ite
  · intro _
    refine ((sys_within (.directory _)).bind fun _ => within_pure _).bind fun made => ?_
    exact within_ite (fun _ => giveUp_within hq) fun _ => hskip _
  intro _
  apply within_ite
  · exact fun _ => hskip _
  intro _
  have hparents : Within (Grows (For name)) (ensureParentDirs answer name) := by
    refine (ensureParentDirs_within h).mono fun w w' hw => ⟨fun c hc => ?_, hw.input⟩
    obtain hc | ⟨dir, rest, hname, rfl⟩ := hw.calls c hc
    · exact .inl hc
    · exact .inr (.parent hname)
  refine hparents.bind fun parents => within_ite (fun _ => giveUp_within hq) fun _ => ?_
  refine (sys_within (.file _ _)).bind fun out => ?_
  refine within_ite (fun _ => giveUp_within hq) fun _ => ?_
  refine (copyBytes_within hq).bind fun copied => within_ite (fun _ => ?_) fun _ => ?_
  · refine (printErr_within hq).bind fun _ => (sys_within (.quiet rfl)).bind fun _ => ?_
    exact (closeIfOwned_within hq).bind fun _ => within_fail _
  refine (sys_within (.quiet rfl)).bind fun _ => ?_
  refine ((sys_within (.bits _)).bind fun _ => within_pure _).bind fun _ => ?_
  exact within_ite (fun _ => hskip _) fun _ => within_pure _

/-- A call that unpacking some safely named member may make. -/
def Unpacks (c : Call) : Prop := ∃ name, SafePath name ∧ For name c

theorem quiet_unpacks : Quiet Unpacks := by
  intro c h
  refine ⟨[0x61], ⟨by simp, by decide, by decide, ?_⟩, .quiet h⟩
  decide

theorem walkHeader_within :
    Within (Grows Unpacks) (walkHeader answer fd owned archive extract header) := by
  apply within_ite
  · exact fun _ => giveUp_within quiet_unpacks
  intro _
  cases hname : nameFromHeader header with
  | none =>
    refine (sys_within (quiet_unpacks _ rfl)).bind fun _ => ?_
    exact (closeIfOwned_within quiet_unpacks).bind fun _ => within_fail _
  | some name =>
    have hsafe := nameFromHeader_safe hname
    dsimp only
    cases paddedSize ((parseOctal (field header 124 136)).getD usizeMax) with
    | none => exact giveUp_within quiet_unpacks
    | some padded =>
      refine (walkNamed_within hsafe).mono fun w w' hw => ⟨fun c hc => ?_, hw.input⟩
      exact (hw.calls c hc).imp_right fun hfor => ⟨name, hsafe, hfor⟩

theorem walkMember_within : Within (Grows Unpacks) (walkMember answer fd owned archive extract) := by
  refine (readExact_within _).bind fun header => ?_
  cases header with
  | none => exact giveUp_within quiet_unpacks
  | some header =>
    refine within_ite (fun _ => within_pure _) fun _ => ?_
    exact walkHeader_within.bind fun _ => within_pure _

/-- A turn of the loop that is followed by another has read a header. -/
theorem walkMember_input_lt (h : walkMember answer fd owned archive extract w = (.ok true, w')) :
    w'.input.length < w.input.length := by
  obtain ⟨header, w₁, hread, hrest⟩ := bind_eq_ok.1 h
  unfold readExact at hread
  split at hread
  · rename_i hle
    cases hread
    dsimp only at hrest
    split at hrest
    · cases hrest
    obtain ⟨u, w₂, hwalk, hlast⟩ := bind_eq_ok.1 hrest
    cases hlast
    have hgrows : Within (Grows Unpacks)
        (walkHeader answer fd owned archive extract (w.input.take block)) :=
      walkHeader_within
    have hin := (hgrows { w with input := w.input.drop block }).input
    rw [hwalk] at hin
    simp only [length_drop, block] at hin hle
    omega
  · cases hread
    exact absurd hrest giveUp_ne_ok

end

section
variable (answer : List Call → ℤ)

def walkLoop (fd : ℤ) (owned : Bool) (archive : Bytes) (extract : Bool) (w : World) :
    Res ℤ Unit × World :=
  match h : walkMember answer fd owned archive extract w with
  | (.ok true, w') => walkLoop fd owned archive extract w'
  | (.ok false, w') => closeIfOwned answer fd owned w'
  | (.error e, w') => (.error e, w')
termination_by w.input.length
decreasing_by exact walkMember_input_lt h

/-- `walk_archive` on an archive of the given path, which holds `w.input`. -/
def walkArchive (archive : Bytes) (extract : Bool) : Walk Unit :=
  if archive = text "-" then walkLoop answer 0 false archive extract
  else do
    let fd ← sys answer (.open archive oRdonly 0)
    if fd < 0 then do
      printErr answer (text "cannot open ") archive
      fail 1
    else walkLoop answer fd true archive extract

end

section
variable {owned extract : Bool}

theorem walkLoop_eq (w : World) :
    walkLoop answer fd owned archive extract w =
      match walkMember answer fd owned archive extract w with
      | (.ok true, w') => walkLoop answer fd owned archive extract w'
      | (.ok false, w') => closeIfOwned answer fd owned w'
      | (.error e, w') => (.error e, w') := by
  rw [walkLoop]
  split <;> rename_i h <;> rw [h]

theorem walkLoop_within : Within (Grows Unpacks) (walkLoop answer fd owned archive extract) := by
  intro w
  have hturn : ∀ {w r w'}, walkMember answer fd owned archive extract w = (r, w') →
      Grows Unpacks w w' := by
    intro w r w' h
    have hw : Grows Unpacks w (walkMember answer fd owned archive extract w).2 :=
      walkMember_within w
    rwa [h] at hw
  induction w using walkLoop.induct answer fd owned archive extract with
  | case1 w w' h ih =>
    rw [walkLoop_eq, h]
    exact IsTrans.trans _ _ _ (hturn h) ih
  | case2 w w' h =>
    rw [walkLoop_eq, h]
    exact IsTrans.trans _ _ _ (hturn h) (closeIfOwned_within quiet_unpacks w')
  | case3 w e w' h =>
    rw [walkLoop_eq, h]
    exact hturn h

theorem walkArchive_within :
    Within (Grows fun c => c = .open archive oRdonly 0 ∨ Unpacks c)
      (walkArchive answer archive extract) := by
  have hloop : ∀ fd owned, Within (Grows fun c => c = .open archive oRdonly 0 ∨ Unpacks c)
      (walkLoop answer fd owned archive extract) := by
    intro fd owned
    refine walkLoop_within.mono fun w w' h => ⟨fun c hc => ?_, h.input⟩
    exact (h.calls c hc).imp_right .inr
  have hquiet : Quiet fun c => c = .open archive oRdonly 0 ∨ Unpacks c :=
    fun c hc => .inr (quiet_unpacks c hc)
  refine within_ite (fun _ => hloop _ _) fun _ => (sys_within (.inl rfl)).bind fun fd => ?_
  refine within_ite (fun _ => ?_) fun _ => hloop _ _
  exact (printErr_within hquiet).bind fun _ => within_fail _

end

theorem For.safe (hname : SafePath name) (h : For name c) (hpath : c.path? = some path) :
    SafePath path := by
  cases h with
  | file => exact some.inj hpath ▸ hname
  | directory => exact some.inj hpath ▸ hname
  | bits => exact some.inj hpath ▸ hname
  | parent hdir => exact some.inj hpath ▸ (hdir ▸ hname).parent
  | quiet hc =>
    rw [hc] at hpath
    cases hpath

/-- Whatever the archive holds and whatever the kernel answers, a call on a path other than the
opening of the archive is on a safe path, and `ensure_parent_dirs`, which is only called on the
safe name of a member, makes directories above that name only. -/
theorem walkArchive_stays_below (answer : List Call → ℤ) (archive input : Bytes) (extract : Bool) :
    (∀ c ∈ (walkArchive answer archive extract ⟨input, []⟩).2.calls, ∀ path,
      c.path? = some path → c = .open archive oRdonly 0 ∨
        SafePath path ∧ ∃ name, SafePath name ∧ For name c) ∧
    ∀ name w, SafePath name → ∀ c ∈ (ensureParentDirs answer name w).2.calls,
      c ∈ w.calls ∨ ∃ dir rest, c = .mkdir dir 0o755 ∧ name = dir ++ slash :: rest ∧
        SafePath dir := by
  constructor
  · intro c hc path hpath
    obtain hnil | rfl | ⟨name, hname, hfor⟩ :=
      (walkArchive_within ⟨input, []⟩).calls c hc
    · cases hnil
    · exact .inl rfl
    · exact .inr ⟨hfor.safe hname hpath, name, hname, hfor⟩
  · intro name w hname c hc
    obtain hc | ⟨dir, rest, hdir, rfl⟩ := (ensureParentDirs_within hname w).calls c hc
    · exact .inl hc
    · exact .inr ⟨dir, rest, rfl, hdir, (hdir ▸ hname).parent⟩

/-- The archive itself is opened under the path it was given by, here `/a`. -/
theorem archive_path_absolute : Call.open (text "/a") oRdonly 0 ∈
        (walkArchive (fun _ => -1) (text "/a") true ⟨[], []⟩).2.calls ∧ ¬ SafePath (text "/a") := by
  constructor
  · decide
  · intro h
    exact h.relative (by decide)

end Ristux.Userland.Tar
