import Mathlib.Data.List.Sort
import Ristux.Lib.Fields
import Ristux.Kernel.Jobs
import Ristux.Vfs.PathAlgebra

-- `linux_getdents64` copies as many records of a directory into the buffer as fit, beginning at
-- the cursor of the open handle. `parse` is the reader of such records: it goes by the length in
-- each header and takes the name up to the first NUL.

namespace Ristux.Kernel.Dents
open List hiding count
open Ristux.Lib Ristux.Ext2 Option Nat
open Ristux.Vfs (NodeKind parentPath fileName joinPath mapExt2Error stripFront pidOf
  handle_setHandle)

structure DirectoryEntry where
  name : List UInt8
  kind : NodeKind
  deriving DecidableEq

/-- The file system and what of the processes `/proc` shows. -/
structure Host where
  vfs : Vfs.State
  env : Vfs.Env
  pids : List ℕ

def mapVfsError : Vfs.VfsError → Errno
  | .permissionDenied => .eacces
  | .notFound => .enoent
  | .alreadyExists => .eexist
  | .badFd => .ebadf
  | .brokenPipe => .epipe
  | .tooManyOpenFiles => .emfile
  | .tooManyLinks => .emlink
  | .noSpace => .enospc
  | .outOfMemory => .enomem
  | .notFile | .utf8 | .wouldBlock => .einval

def pushEntry (entries : List DirectoryEntry) (name : Str) (kind : NodeKind) :
    List DirectoryEntry :=
  entries ++ [⟨asBytes name, kind⟩]

def pushUniqueEntry (entries : List DirectoryEntry) (name : Str) (kind : NodeKind) :
    List DirectoryEntry :=
  if entries.any fun entry => entry.name = asBytes name then entries
  else pushEntry entries name kind

/-- `entries.sort_by(|a, b| a.name.cmp(&b.name))`. -/
def sortByName (entries : List DirectoryEntry) : List DirectoryEntry :=
  entries.insertionSort fun a b => a.name ≤ b.name

/-- The loop of `node_directory_entries` over the nodes. -/
def childEntries (path : Str) :
    List Vfs.Node → List DirectoryEntry → Res Vfs.VfsError (List DirectoryEntry)
  | [], entries => .ok entries
  | child :: nodes, entries =>
    if child.path = [] ∨ child.path = path then childEntries path nodes entries
    else do
      let parent ← parentPath child.path
      if parent ≠ path then childEntries path nodes entries
      else do
        let name ← fileName child.path
        childEntries path nodes (pushEntry entries name child.kind)

/-- What `/proc` shows besides its nodes and the processes. -/
def procNames : List (String × NodeKind) :=
  [("meminfo", .file), ("mounts", .file), ("netinfo", .file), ("self", .directory),
    ("stat", .file), ("uptime", .file)]

/-- `proc_existing_process_dir_pid(path).is_some()`. -/
def Host.hasProcessDir (s : Host) (path : Str) : Bool :=
  ((stripFront "/proc/".toList path).bind (pidOf s.env)).any (· ∈ s.pids)

def Host.nodeDirectoryEntries (s : Host) (path : Str) : Res Vfs.VfsError (List DirectoryEntry) := do
  let entries ← childEntries path s.vfs.nodes []
  let entries :=
    if path = "/proc".toList then
      let entries := procNames.foldl (fun l e => pushUniqueEntry l e.1.toList e.2) entries
      -- the processes in the order of `next_process_pid_after`
      ((s.pids.filter (0 < ·)).insertionSort (· ≤ ·)).foldl
        (fun l pid => pushUniqueEntry l (toDigits 10 pid) .directory) entries
    else if s.hasProcessDir path then pushUniqueEntry entries "status".toList .file
    else entries
  .ok (sortByName entries)

def nodeKind : Ext2NodeKind → NodeKind
  | .file => .file
  | .directory => .directory
  | .symlink => .symlink

/-- The loop of `ext2_directory_entries` over the names. -/
def namedEntries (fs : Ext2Fs) (dev : Device) (path : Str) :
    List Str → List DirectoryEntry → Res Vfs.VfsError (List DirectoryEntry)
  | [], entries => .ok entries
  | name :: names, entries => do
    let full ← joinPath path name
    let found ← (lstatMetadata fs full dev).mapErr mapExt2Error
    namedEntries fs dev path names (pushEntry entries name (nodeKind found.kind))

def Host.ext2DirectoryEntries (s : Host) (path : Str) : Res Vfs.VfsError (List DirectoryEntry) := do
  let fs ← Res.okOr s.vfs.rootExt2 .notFound
  let names ← (listDir fs path s.vfs.world.dev).mapErr mapExt2Error
  let entries ← namedEntries fs s.vfs.world.dev path names []
  .ok (sortByName entries)

/-- The entries of an open directory and the cursor of its handle. -/
def Host.directoryEntries (s : Host) (fd : ℕ) : Res Vfs.VfsError (List DirectoryEntry × ℕ) :=
  match s.vfs.handle fd with
  | none => Res.err .badFd
  | some (.node node offset _) => do
    let node ← Res.okOr s.vfs.nodes[node]? .badFd
    if node.kind ≠ .directory then Res.err .notFile
    else do
      let entries ← s.nodeDirectoryEntries node.path
      .ok (entries, offset)
  | some (.ext2Dir path offset) => do
    let entries ← s.ext2DirectoryEntries path
    .ok (entries, offset)
  | some _ => Res.err .notFile

def Host.setCursor (s : Host) (fd : ℕ) (handle : Vfs.OpenHandle) : Host :=
  { s with vfs := s.vfs.setHandle fd handle }

def Host.setDirectoryOffset (s : Host) (fd offset : ℕ) : Res Vfs.VfsError Host :=
  match s.vfs.handle fd with
  | none => Res.err .badFd
  | some (.node node _ rights) =>
    if (s.vfs.nodes[node]?).map (·.kind) ≠ some .directory then Res.err .notFile
    else .ok (s.setCursor fd (.node node offset rights))
  | some (.ext2Dir path _) => .ok (s.setCursor fd (.ext2Dir path offset))
  | some _ => Res.err .notFile

def dirent64Header : ℕ := 19

def align8 (value : ℕ) : ℕ := (value + 7) / 8 * 8

def reclen (entry : DirectoryEntry) : ℕ := align8 (dirent64Header + entry.name.length + 1)

def direntType : NodeKind → UInt8
  | .directory => 4
  | .file => 8
  | .symlink => 10
  | .device _ => 2

variable (index : ℕ)

/-- The part of the buffer that one entry takes. -/
def record (entry : DirectoryEntry) : List UInt8 :=
  leBytes 8 (index + 1) ++ leBytes 8 (index + 1) ++ leBytes 2 (reclen entry) ++
    [direntType entry.kind] ++ entry.name ++
    replicate (reclen entry - dirent64Header - entry.name.length) 0

/-- The loop, over the entries that are left, with what has been written. -/
def getdentsLoop (count : ℕ) :
    List DirectoryEntry → ℕ → List UInt8 → Res Errno (List UInt8 × ℕ)
  | [], index, out => .ok (out, index)
  | entry :: rest, index, out =>
    if count < reclen entry then
      if out.length = 0 then Res.err .einval else .ok (out, index)
    else if count < out.length + reclen entry then .ok (out, index)
    else getdentsLoop count rest (index + 1) (out ++ record index entry)

/-- `linux_getdents64` on an open file: the bytes it writes, and the kernel afterwards. -/
def Host.linuxGetdents64 (s : Host) (fd count : ℕ) : Res Errno (List UInt8 × Host) := do
  let (entries, index) ← (s.directoryEntries fd).mapErr mapVfsError
  let (out, index) ← getdentsLoop count (entries.drop index) index []
  let s ← (s.setDirectoryOffset fd index).mapErr mapVfsError
  .ok (out, s)

/-- One call, and what the rest of the kernel does before it. -/
structure Call where
  others : Host → Host
  count : ℕ

/-- A sequence of calls on one descriptor. -/
def getdentsCalls (fd : ℕ) : Host → List Call → Res Errno (List (List UInt8) × Host)
  | s, [] => .ok ([], s)
  | s, call :: calls => do
    let (out, s) ← (call.others s).linuxGetdents64 fd call.count
    let (outs, s) ← getdentsCalls fd s calls
    .ok (out :: outs, s)

/-- What a reader takes from one record. -/
def parseOne (bytes : List UInt8) : Option (List UInt8 × UInt8 × ℕ) := do
  let len := leNat ((bytes.drop 16).take 2)
  let type ← bytes[18]?
  let field := (bytes.take len).drop dirent64Header
  if len ≤ bytes.length ∧ 0 ∈ field then some (field.takeWhile (· ≠ 0), type, len) else none

/-- The names and types of the records in a buffer. -/
def parse (bytes : List UInt8) : Option (List (List UInt8 × UInt8)) :=
  if bytes = [] then some []
  else
    match parseOne bytes with
    | none => none
    | some (name, type, len) =>
      if 0 < len ∧ 0 < bytes.length then (parse (bytes.drop len)).map ((name, type) :: ·) else none
termination_by bytes.length
decreasing_by rw [length_drop]; omega

/-- A name that a record can hold: NUL ends it, and the length of the record has 16 bits. -/
structure Holdable (entry : DirectoryEntry) : Prop where
  noNul : 0 ∉ entry.name
  short : entry.name.length ≤ 65508

/-- What a reader should find of an entry. -/
def view (entry : DirectoryEntry) : List UInt8 × UInt8 := (entry.name, direntType entry.kind)

/-- The rest of the kernel leaves the directory and the cursor alone, and every buffer has room
for the next record. -/
def Steady (fd : ℕ) : Host → List Call → Prop
  | _, [] => True
  | s, call :: calls =>
    (call.others s).directoryEntries fd = s.directoryEntries fd ∧
      (∀ entries index entry, s.directoryEntries fd = .ok (entries, index) →
        entries[index]? = some entry → reclen entry ≤ call.count) ∧
      ∀ out t, (call.others s).linuxGetdents64 fd call.count = .ok (out, t) → Steady fd t calls

theorem reclen_bounds (entry : DirectoryEntry) : dirent64Header + entry.name.length < reclen entry ∧
      reclen entry ≤ dirent64Header + entry.name.length + 8 := by
  simp only [reclen, align8, dirent64Header]
  omega

theorem length_record (entry : DirectoryEntry) : (record index entry).length = reclen entry := by
  have hlt := (reclen_bounds entry).1
  simp only [record, length_append, length_leBytes, length_singleton,
    length_replicate, dirent64Header] at *
  omega

theorem record_ne_nil (entry : DirectoryEntry) : record index entry ≠ [] := by
  have hlt := (reclen_bounds entry).1
  apply ne_nil_of_length_pos
  rw [length_record]
  omega

variable {entry : DirectoryEntry} {entries : List DirectoryEntry}

/-- A record is read back, whatever follows it. -/
theorem parseOne_record (h : Holdable entry) (rest : List UInt8) :
    parseOne (record index entry ++ rest) =
      some (entry.name, direntType entry.kind, reclen entry) := by
  obtain ⟨hlt, hle⟩ := reclen_bounds entry
  have hlen : leNat (((record index entry ++ rest).drop 16).take 2) = reclen entry := by
    have hfield : ((record index entry ++ rest).drop 16).take 2 = leBytes 2 (reclen entry) := by
      simp [record, drop_append, take_append]
    rw [hfield, leNat_leBytes]
    have := h.short
    apply mod_eq_of_lt
    simp only [dirent64Header, reclen, align8] at *
    omega
  have htype : (record index entry ++ rest)[18]? = some (direntType entry.kind) := by
    simp [record, getElem?_append]
  have hfield : ((record index entry ++ rest).take (reclen entry)).drop dirent64Header =
      entry.name ++ replicate (reclen entry - dirent64Header - entry.name.length) 0 := by
    rw [take_left' (length_record index entry), record, append_assoc]
    exact drop_left' (by simp [dirent64Header])
  obtain ⟨k, hk⟩ : ∃ k, reclen entry - dirent64Header - entry.name.length = k + 1 :=
    ⟨reclen entry - dirent64Header - entry.name.length - 1, by omega⟩
  have hname : (entry.name ++ replicate (k + 1) (0 : UInt8)).takeWhile (· ≠ 0) =
      entry.name := by
    have hall : ∀ b ∈ entry.name, decide (b ≠ 0) = true := by
      intro b hb
      exact decide_eq_true fun hzero => h.noNul (hzero ▸ hb)
    rw [takeWhile_append_of_pos hall, replicate_succ, takeWhile_cons_of_neg (by simp), append_nil]
  have hinside : reclen entry ≤ (record index entry ++ rest).length := by
    rw [length_append, length_record]
    exact Nat.le_add_right ..
  simp only [parseOne, hlen, htype, hfield, hk, bind_eq_bind, bind_some]
  rw [if_pos ⟨hinside, mem_append_right _ (by simp)⟩, hname]

theorem parse_nil : parse [] = some [] := by rw [parse, if_pos rfl]

theorem parse_record (h : Holdable entry) (rest : List UInt8) :
    parse (record index entry ++ rest) = (parse rest).map (view entry :: ·) := by
  have hpos := (reclen_bounds entry).1
  have hne : record index entry ++ rest ≠ [] := by simp [record_ne_nil]
  rw [parse, if_neg hne, parseOne_record index h]
  dsimp only
  rw [if_pos ⟨by omega, length_pos_of_ne_nil hne⟩, drop_left' (length_record index entry)]
  rfl

/-- The records of the entries, the first of which has the number `index`. -/
def records : ℕ → List DirectoryEntry → List UInt8
  | _, [] => []
  | index, entry :: rest => record index entry ++ records (index + 1) rest

theorem records_append (l l' : List DirectoryEntry) :
    records index (l ++ l') = records index l ++ records (index + l.length) l' := by
  induction l generalizing index with
  | nil => rfl
  | cons entry l ih =>
    simp only [cons_append, records, ih, append_assoc, length_cons]
    rw [add_right_comm, add_assoc]

theorem parse_records {l : List DirectoryEntry} (h : ∀ entry ∈ l, Holdable entry) (index : ℕ)
    (rest : List UInt8) : parse (records index l ++ rest) = (parse rest).map (l.map view ++ ·) := by
  induction l generalizing index with
  | nil => simp [records]
  | cons entry l ih =>
    rw [records, append_assoc, parse_record index (h entry mem_cons_self),
      ih (forall_mem_cons.1 h).2, Option.map_map]
    rfl

/-- The loop writes the records of the first entries, and stops early only if it has written
something. -/
theorem getdentsLoop_ok (count : ℕ) (rest : List DirectoryEntry) (index : ℕ) (out : List UInt8)
    (h : out ≠ [] ∨ ∀ entry, rest.head? = some entry → reclen entry ≤ count) :
    ∃ n ≤ rest.length, getdentsLoop count rest index out =
        .ok (out ++ records index (rest.take n), index + n) ∧ (out = [] → rest ≠ [] → 0 < n) := by
  induction rest generalizing index out with
  | nil => exact ⟨0, le_rfl, by simp [getdentsLoop, records], fun _ h => absurd rfl h⟩
  | cons entry rest ih =>
    have hstop : out ≠ [] → ∃ n ≤ (entry :: rest).length,
        Except.ok (out, index) = (Except.ok (out ++ records index ((entry :: rest).take n),
          index + n) : Res Errno _) ∧ (out = [] → entry :: rest ≠ [] → 0 < n) :=
      fun hne => ⟨0, zero_le _, by simp [records], fun h => absurd h hne⟩
    rw [getdentsLoop]
    by_cases hbig : count < reclen entry
    · have hne : out ≠ [] := h.resolve_right fun hfits => absurd (hfits entry rfl) (by omega)
      rw [if_pos hbig, if_neg (by simpa using hne)]
      exact hstop hne
    rw [if_neg hbig]
    by_cases hfull : count < out.length + reclen entry
    · rw [if_pos hfull]
      refine hstop fun hnil => ?_
      rw [hnil, length_nil] at hfull
      omega
    rw [if_neg hfull]
    obtain ⟨n, hn, heq, -⟩ := ih (index + 1) (out ++ record index entry)
      (.inl (append_ne_nil_of_right_ne_nil _ (record_ne_nil index entry)))
    refine ⟨n + 1, succ_le_succ hn, ?_, fun _ _ => succ_pos n⟩
    rw [heq, take_succ_cons, records, append_assoc, add_assoc, add_comm 1 n]

variable {s : Host} {fd i : ℕ} {calls : List Call}

/-- Moving the cursor moves nothing else: the directory lists the same entries. -/
theorem directoryEntries_moved (h : s.directoryEntries fd = .ok (entries, i)) (j : ℕ) :
    ∃ t, s.setDirectoryOffset fd j = .ok t ∧ t.directoryEntries fd = .ok (entries, j) := by
  unfold Host.directoryEntries at h
  split at h
  · cases h
  · rename_i node offset rights hhandle
    obtain ⟨n, hn, h⟩ := Res.bind_eq_ok.1 h
    rw [Res.okOr_eq_ok] at hn
    split_ifs at h with hkind
    obtain ⟨l, hl, h⟩ := Res.bind_eq_ok.1 h
    obtain ⟨rfl, -⟩ := Prod.mk.inj (Except.ok.inj h)
    refine ⟨s.setCursor fd (.node node j rights), ?_, ?_⟩
    · rw [Host.setDirectoryOffset, hhandle]
      exact if_neg (by simpa [hn] using hkind)
    · have hnodes : (s.setCursor fd (.node node j rights)).nodeDirectoryEntries n.path = .ok l := hl
      rw [Host.directoryEntries, Host.setCursor, handle_setHandle _ hhandle, if_pos rfl]
      dsimp only
      rw [show (s.vfs.setHandle fd (.node node j rights)).nodes[node]? = some n from hn]
      simp only [Res.okOr, Res.ok_bind, if_neg hkind]
      exact congrArg (· >>= fun l => .ok (l, j)) hnodes
  · rename_i path offset hhandle
    obtain ⟨l, hl, h⟩ := Res.bind_eq_ok.1 h
    obtain ⟨rfl, -⟩ := Prod.mk.inj (Except.ok.inj h)
    refine ⟨s.setCursor fd (.ext2Dir path j), by rw [Host.setDirectoryOffset, hhandle], ?_⟩
    rw [Host.directoryEntries, Host.setCursor, handle_setHandle _ hhandle, if_pos rfl]
    exact congrArg (· >>= fun l => .ok (l, j)) hl
  · cases h

/-- A call that succeeds has moved the cursor. -/
theorem linuxGetdents64_keeps {count : ℕ} {out : List UInt8} {t : Host}
    (hs : s.directoryEntries fd = .ok (entries, i))
    (h : s.linuxGetdents64 fd count = .ok (out, t)) :
    ∃ j, t.directoryEntries fd = .ok (entries, j) := by
  rw [Host.linuxGetdents64, hs] at h
  simp only [Res.mapErr, Res.ok_bind] at h
  obtain ⟨⟨out', j⟩, -, h⟩ := Res.bind_eq_ok.1 h
  obtain ⟨t', hset, ht⟩ := directoryEntries_moved hs j
  simp only [hset, Res.ok_bind] at h
  obtain ⟨-, rfl⟩ := Prod.mk.inj (Except.ok.inj h)
  exact ⟨j, ht⟩

theorem linuxGetdents64_ok {count : ℕ} (hs : s.directoryEntries fd = .ok (entries, i))
    (hle : i ≤ entries.length) (h : ∀ entry, entries[i]? = some entry → reclen entry ≤ count) :
    ∃ n t, i + n ≤ entries.length ∧ t.directoryEntries fd = .ok (entries, i + n) ∧
      s.linuxGetdents64 fd count = .ok (records i ((entries.drop i).take n), t) ∧
      (i < entries.length → 0 < n) := by
  obtain ⟨n, hn, heq, hpos⟩ := getdentsLoop_ok count (entries.drop i) i []
    (.inr (by rwa [head?_drop]))
  obtain ⟨t, hset, ht⟩ := directoryEntries_moved hs (i + n)
  rw [length_drop] at hn
  refine ⟨n, t, by omega, ht, ?_, fun hlt => hpos rfl ?_⟩
  · rw [nil_append] at heq
    simp only [Host.linuxGetdents64, hs, Res.mapErr, Res.ok_bind, heq, hset]
  · exact ne_nil_of_length_pos (by rw [length_drop]; omega)

/-- The calls succeed, their buffers together hold the next entries, a call writes nothing only
at the end, and the call after the last entry does. -/
theorem getdentsCalls_ok : ∀ {s : Host} {i : ℕ}, s.directoryEntries fd = .ok (entries, i) →
    i ≤ entries.length → Steady fd s calls →
      ∃ outs t n, getdentsCalls fd s calls = .ok (outs, t) ∧
        t.directoryEntries fd = .ok (entries, i + n) ∧ outs.length = calls.length ∧
        outs.flatten = records i ((entries.drop i).take n) ∧
        (i + n < entries.length → calls.length ≤ n ∧ [] ∉ outs) ∧
        (entries.length < i + calls.length → outs.getLast? = some []) := by
  induction calls with
  | nil =>
    intro s i hs hle _
    refine ⟨[], s, 0, rfl, hs, rfl, by simp [records], fun _ => ⟨le_rfl, not_mem_nil⟩, ?_⟩
    intro hlt
    rw [length_nil] at hlt
    omega
  | cons call calls ih =>
    intro s i hs hle ⟨hothers, hroom, hrest⟩
    rw [← hothers] at hs
    obtain ⟨n, t, hn, ht, heq, hpos⟩ := linuxGetdents64_ok hs hle (hroom _ _ · (hothers ▸ hs))
    obtain ⟨outs, u, m, hcalls, hu, hlen, hflat, hshort, hlast⟩ := ih ht hn (hrest _ _ heq)
    refine ⟨records i ((entries.drop i).take n) :: outs, u, n + m, ?_, ?_, ?_, ?_, fun hlt => ?_,
      fun hlt => ?_⟩
    · rw [getdentsCalls, heq, Res.ok_bind]
      dsimp only
      rw [hcalls]
      rfl
    · rwa [← add_assoc]
    · rw [length_cons, hlen, length_cons]
    · rw [flatten_cons, hflat, take_add, records_append, length_take,
        length_drop, drop_drop, min_eq_left (by omega)]
    · obtain ⟨hcount, hmem⟩ := hshort (by omega)
      refine ⟨by rw [length_cons]; omega, fun hnil => ?_⟩
      obtain hnil | hnil := mem_cons.1 hnil
      · have htake : (entries.drop i).take n ≠ [] := by
          apply ne_nil_of_length_pos
          rw [length_take, length_drop]
          omega
        obtain ⟨entry, l, hl⟩ := exists_cons_of_ne_nil htake
        rw [hl, records] at hnil
        exact record_ne_nil i entry (append_eq_nil_iff.1 hnil.symm).1
      · exact hmem hnil
    · rw [length_cons] at hlt
      cases outs with
      | nil =>
        -- the last call: the cursor is at the end already
        rw [length_nil] at hlen
        rw [drop_of_length_le (by omega), take_nil]
        rfl
      | cons out outs =>
        rw [getLast?_cons_cons]
        apply hlast
        rw [length_cons] at hlen
        have := hpos
        omega

/-- Buffers with room for every record will do. -/
theorem steady_of_le : ∀ {s : Host} {i : ℕ}, s.directoryEntries fd = .ok (entries, i) →
    (∀ call ∈ calls, call.others = id ∧ ∀ entry ∈ entries, reclen entry ≤ call.count) →
      Steady fd s calls := by
  induction calls with
  | nil => intros; trivial
  | cons call calls ih =>
    intro s i hs h
    obtain ⟨⟨hid, hcount⟩, h⟩ := forall_mem_cons.1 h
    rw [Steady, hid]
    refine ⟨rfl, fun l j entry hl hentry => ?_, fun out t ht => ?_⟩
    · obtain ⟨rfl, rfl⟩ := Prod.mk.inj (Except.ok.inj (hs.symm.trans hl))
      exact hcount entry (mem_of_getElem? hentry)
    · obtain ⟨j, hj⟩ := linuxGetdents64_keeps hs ht
      exact ih hj h

/-- Reading a directory from its start: the calls succeed, the records parse to the entries in
order, no call writes nothing before the end, after as many calls as there are entries the end is
reached, and the call after that writes nothing. -/
theorem getdents_exact {s : Host} {fd : ℕ} {entries : List DirectoryEntry}
    (hs : s.directoryEntries fd = .ok (entries, 0)) (h : ∀ entry ∈ entries, Holdable entry)
    {calls : List Call} (hsteady : Steady fd s calls) :
    ∃ outs t n, getdentsCalls fd s calls = .ok (outs, t) ∧
      t.directoryEntries fd = .ok (entries, n) ∧
      parse outs.flatten = some ((entries.take n).map view) ∧ (n < entries.length → [] ∉ outs) ∧
      (entries.length ≤ calls.length → entries.take n = entries) ∧
      (entries.length < calls.length → outs.getLast? = some []) := by
  obtain ⟨outs, t, n, hcalls, ht, -, hflat, hrest, hlast⟩ := getdentsCalls_ok hs (zero_le _) hsteady
  rw [zero_add] at ht
  refine ⟨outs, t, n, hcalls, ht, ?_, fun hlt => (hrest (by omega)).2, fun hlen => ?_,
    fun hlt => hlast (by omega)⟩
  · have hparse := parse_records (l := entries.take n) (fun e he => h e (mem_of_mem_take he)) 0 []
    rw [hflat, drop_zero, ← append_nil (records 0 _), hparse, parse_nil]
    simp
  apply take_of_length_le
  by_contra hlt
  have := (hrest (by omega)).1
  omega

/-- A file of the initial ramdisk, below the root. -/
def initrdNode (name : Str) : Vfs.Node :=
  ⟨componentsToPath [name], .file, ⟨0, 0, 0o755⟩, ⟨0, 0⟩, .empty, none⟩

/-- The root directory with the given files of the initial ramdisk, open as descriptor 0. -/
def rootWith (names : List Str) : Host where
  vfs :=
    { nodes := ⟨['/'], .directory, ⟨0, 0, 0o755⟩, ⟨0, 0⟩, .empty, none⟩ :: names.map initrdNode
      openFiles := [some (.node 0 0 ⟨true, false⟩)]
      pipes := [], ptys := [], mounts := []
      world := ⟨⟨0, fun _ => Buf.zero⟩, fun _ => 0, 0⟩ }
  env := ⟨none, fun _ => .empty, [], [], fun _ => 0, length, fun _ => .ok [], fun l => .ok l.length⟩
  pids := []

def fileEntry (name : Str) : DirectoryEntry := ⟨asBytes name, .file⟩

theorem childEntries_initrd {names : List Str} (h : ∀ name ∈ names, Plain name)
    (entries : List DirectoryEntry) :
    childEntries ['/'] (names.map initrdNode) entries = .ok (entries ++ names.map fileEntry) := by
  induction names generalizing entries with
  | nil => rw [map_nil, map_nil, append_nil, childEntries]
  | cons name names ih =>
    obtain ⟨hname, hnames⟩ := forall_mem_cons.1 h
    have hplain : ∀ p ∈ [name], Plain p := by simpa using hname
    have hparts : partsOf (componentsToPath [name]) = [] ++ [name] :=
      partsOf_componentsToPath hplain
    have hparent : parentPath (componentsToPath [name]) = .ok ['/'] :=
      Vfs.parentPath_componentsToPath hplain
    have hfile : fileName (componentsToPath [name]) = .ok name :=
      Vfs.fileName_of_parts rfl hparts
    have hroot : ¬ (componentsToPath [name] = [] ∨ componentsToPath [name] = ['/']) := by
      simpa [componentsToPath, joinSlash] using hname.1
    rw [map_cons, childEntries, initrdNode, if_neg hroot, hparent, Res.ok_bind,
      if_neg (not_not.2 rfl), hfile, Res.ok_bind]
    exact (ih hnames _).trans (by rw [pushEntry, map_cons, append_assoc]; rfl)

theorem directoryEntries_rootWith {names : List Str} (h : ∀ name ∈ names, Plain name) :
    (rootWith names).directoryEntries 0 = .ok (sortByName (names.map fileEntry), 0) := by
  have hnodes : childEntries ['/'] (rootWith names).vfs.nodes [] = .ok (names.map fileEntry) :=
    childEntries_initrd h []
  have hlist : (rootWith names).nodeDirectoryEntries ['/'] =
      .ok (sortByName (names.map fileEntry)) := by
    rw [Host.nodeDirectoryEntries, hnodes]
    rfl
  exact congrArg (· >>= fun l => .ok (l, 0)) hlist

/-- The root with two files, read with a buffer for one record at a time. -/
theorem getdents_exact_two : ∃ outs t,
    getdentsCalls 0 (rootWith [['b'], ['a']]) (replicate 3 ⟨id, 24⟩) = .ok (outs, t) ∧
      parse outs.flatten = some [([97], 8), ([98], 8)] ∧ outs.getLast? = some [] := by
  have hs : (rootWith [['b'], ['a']]).directoryEntries 0 =
      .ok ([fileEntry ['a'], fileEntry ['b']], 0) := directoryEntries_rootWith (by simp [Plain])
  have hsteady : Steady 0 (rootWith [['b'], ['a']]) (replicate 3 ⟨id, 24⟩) := by
    apply steady_of_le hs
    intro call hcall
    rw [eq_of_mem_replicate hcall]
    exact ⟨rfl, by decide⟩
  obtain ⟨outs, t, n, hcalls, -, hparse, -, hall, hlast⟩ := getdents_exact hs
    (by intro entry hentry; constructor <;> revert entry <;> decide) hsteady
  rw [hall (by decide)] at hparse
  exact ⟨outs, t, hcalls, hparse, hlast (by decide)⟩

theorem parseOne_of_wrapped (h : reclen entry % 2 ^ 16 = 0) : parseOne (record 0 entry) = none := by
  have hfield : ((record 0 entry).drop 16).take 2 = leBytes 2 (reclen entry) := by
    simp [record, drop_append, take_append]
  have hlen : leNat (((record 0 entry).drop 16).take 2) = 0 := by
    rw [hfield, leNat_leBytes]
    exact h
  simp [parseOne, hlen]

/-- One file, and one call with room for its record. -/
theorem getdentsCalls_single (name : Str) (h : Plain name) :
    Steady 0 (rootWith [name]) [⟨id, reclen (fileEntry name)⟩] ∧
    ∃ t, getdentsCalls 0 (rootWith [name]) [⟨id, reclen (fileEntry name)⟩] =
      .ok ([record 0 (fileEntry name)], t) := by
  have hs : (rootWith [name]).directoryEntries 0 = .ok ([fileEntry name], 0) :=
    directoryEntries_rootWith (by simpa using h)
  have hsteady : Steady 0 (rootWith [name]) [⟨id, reclen (fileEntry name)⟩] :=
    steady_of_le hs (by simp)
  have hroom : ∀ entry, [fileEntry name][0]? = some entry →
      reclen entry ≤ reclen (fileEntry name) := by simp
  obtain ⟨n, t, hn, -, heq, hpos⟩ := linuxGetdents64_ok hs (zero_le _) hroom
  obtain rfl : n = 1 := by
    have := hpos (by simp)
    rw [length_singleton] at hn
    omega
  refine ⟨hsteady, t, ?_⟩
  rw [getdentsCalls]
  dsimp only [id_eq]
  rw [heq]
  simp [getdentsCalls, records]

/-- The record of a name of 65509 bytes has the length 65536, which reads as zero. -/
theorem getdentsCalls_wrapped {name : Str} (h : Plain name)
    (hlen : (asBytes name).length = 65509) :
    ∃ out t, Steady 0 (rootWith [name]) [⟨id, 65536⟩] ∧
      getdentsCalls 0 (rootWith [name]) [⟨id, 65536⟩] = .ok ([out], t) ∧ parse out = none := by
  have hreclen : reclen (fileEntry name) = 65536 := by rw [reclen, fileEntry, hlen]; rfl
  obtain ⟨hsteady, t, ht⟩ := getdentsCalls_single name h
  rw [hreclen] at hsteady ht
  refine ⟨_, t, hsteady, ht, ?_⟩
  rw [parse, if_neg (record_ne_nil _ _), parseOne_of_wrapped (by rw [hreclen]; rfl)]

theorem plain_replicate {n : ℕ} (h : 2 < n) : Plain (replicate n 'a') := by
  have hlen : (replicate n 'a').length = n := length_replicate
  refine ⟨fun hnil => ?_, fun hdot => ?_, fun hdots => ?_, fun hslash => ?_⟩
  · rw [hnil, length_nil] at hlen
    omega
  · rw [hdot, length_singleton] at hlen
    omega
  · rw [hdots] at hlen
    exact absurd hlen h.ne
  · exact absurd (eq_of_mem_replicate hslash) (by decide)

theorem length_asBytes_replicate (n : ℕ) : (asBytes (replicate n 'a')).length = n := by
  rw [asBytes, length_flatMap, map_replicate, sum_replicate_nat]
  exact Nat.mul_one n

/-- The initial ramdisk gives the length of a path in 16 bits, and any UTF-8 may stand in it: a
name with a NUL in it is cut there, and a name of 65509 bytes has a record whose length wraps to
zero. -/
theorem getdents_misreads_initrd :
    (∃ out t, Steady 0 (rootWith [['a', '\x00', 'b']]) [⟨id, 24⟩] ∧
      getdentsCalls 0 (rootWith [['a', '\x00', 'b']]) [⟨id, 24⟩] = .ok ([out], t) ∧
      parse out = some [([97], 8)]) ∧
    ∃ out t, Steady 0 (rootWith [replicate 65509 'a']) [⟨id, 65536⟩] ∧
      getdentsCalls 0 (rootWith [replicate 65509 'a']) [⟨id, 65536⟩] = .ok ([out], t) ∧
      parse out = none := by
  constructor
  · obtain ⟨hsteady, t, ht⟩ := getdentsCalls_single ['a', '\x00', 'b']
      ⟨by decide, by decide, by decide, by decide⟩
    refine ⟨_, t, hsteady, ht, ?_⟩
    have hone : parseOne (record 0 (fileEntry ['a', '\x00', 'b'])) = some ([97], 8, 24) := by
      decide +kernel
    rw [parse, if_neg (record_ne_nil _ _), hone]
    dsimp only
    rw [if_pos (by decide), show (record 0 (fileEntry ['a', '\x00', 'b'])).drop 24 = [] by
      decide +kernel, parse_nil]
    rfl
  · exact getdentsCalls_wrapped (plain_replicate (by decide)) (length_asBytes_replicate _)

end Ristux.Kernel.Dents
