import Ristux.Vfs.Basic

-- Opening, creating, removing and renaming. A path below `/dev`, `/proc`, `/tmp` or `/initrd`
-- belongs to the in-memory nodes, every other path to the ext2 root when there is one.

namespace Ristux.Vfs
open Lib Ext2 Proc Res
open Kernel (Credentials)

variable (path : Str)

def normalizePath : Res VfsError Str :=
  if path.head? ≠ some '/' then err .notFound
  else
    let parts := (splitSlash path).foldl pushPart []
    .ok (if parts = [] then ['/'] else parts.flatMap fun part => '/' :: part)

def parentPath : Res VfsError Str := do
  let path ← normalizePath path
  let trimmed := trimEndSlash path
  match rfindSlash trimmed with
  | some 0 | none => .ok ['/']
  | some index => .ok (trimmed.take index)

def joinPath (parent name : Str) : Res VfsError Str :=
  if name.head? = some '/' then normalizePath name
  else
    let parent := trimEndSlash parent
    if parent = [] ∨ parent = ['/'] then normalizePath ('/' :: name)
    else normalizePath (parent ++ '/' :: name)

def childPathPrefix : Str := trimEndSlash path ++ ['/']

/-- `path.get(n..)`: the text from byte `n` on, if a character starts there. -/
def fromByte : ℕ → Str → Option Str
  | 0, path => some path
  | _ + 1, [] => none
  | n + 1, c :: path => if c.utf8Size ≤ n + 1 then fromByte (n + 1 - c.utf8Size) path else none

def replacePathPrefix (path oldPrefix newPrefix : Str) : Res VfsError Str := do
  let rest ← okOr (fromByte (asBytes oldPrefix).length path) .notFound
  .ok (newPrefix ++ rest)

/-- `top` itself or something below it. -/
def atOrBelow (top path : Str) : Bool := path = top || (top ++ ['/']).isPrefixOf path

def useRootExt2 : Bool :=
  !(atOrBelow "/dev".toList path || atOrBelow "/proc".toList path ||
    atOrBelow "/tmp".toList path || atOrBelow "/initrd".toList path)

def resolveFrom (s : State) : ℕ → Str → Res VfsError Str
  | 0, _ => err .notFound
  | rounds + 1, current =>
    match s.findNode current with
    | none => .ok current
    | some node =>
      if node.kind ≠ .symlink then .ok current
      else do
        let target ← okOr (fromUtf8 node.data.bytes) .utf8
        let next ←
          if target.head? = some '/' then normalizePath target
          else do
            let parent ← parentPath current
            joinPath parent target
        resolveFrom s rounds next

/-- Symbolic links among the in-memory nodes are followed at most eight times. -/
def resolveSymlinkPath (s : State) (path : Str) : Res VfsError Str := do
  let current ← normalizePath path
  resolveFrom s 8 current

/-- `text.parse::<u64>().ok()`. -/
def parseU64 (text : Str) : Option ℕ :=
  let digits := if text.head? = some '+' then text.tail else text
  if digits = [] ∨ ¬ digits.all Char.isDigit then none
  else
    let n := digits.foldl (fun n c => 10 * n + (c.toNat - '0'.toNat)) 0
    if n ≤ u64Max then some n else none

/-- `path.strip_prefix(front)`. -/
def stripFront (front path : Str) : Option Str :=
  if front.isPrefixOf path then some (path.drop front.length) else none

variable (env : Env)

def pidOf (text : Str) : Option ℕ :=
  if text = "self".toList then env.currentPid else parseU64 text

def ensureParentDirectory (required : Option (Credentials × Access)) : V Unit := do
  require (path.head? = some '/' ∧ path ≠ ['/']) .notFound
  let slash ← lift (okOr (rfindSlash path) .notFound)
  let parentPath := if slash = 0 then ['/'] else path.take slash
  let parent ← query fun s => okOr (s.findNode parentPath) .notFound
  require (parent.kind = .directory) .notFile
  match required with
  | none => pure ()
  | some (creds, access) => require (parent.metadata.canAccess creds access) .permissionDenied

variable (fs : Ext2Fs)

/-- The check on the parent directory that the calls on the ext2 root make. -/
def ext2Directory (path : Str) : V FileMetadata := do
  let parent ← askExt2 mapExt2Error (metadata fs path)
  require (parent.kind = .directory) .notFile
  pure (fileMetadata parent)

def searchableExt2 (path : Str) (creds : Credentials) : V Unit := do
  let parent ← ext2Directory fs path
  require (parent.canAccess creds .write && parent.canAccess creds .execute) .permissionDenied

def writableExt2 (path : Str) (creds : Credentials) : V Unit := do
  let parent ← ext2Directory fs path
  require (parent.canAccess creds .write) .permissionDenied

/-- The ext2 root, for the paths that belong to it. -/
def rootFor : V (Option Ext2Fs) := query fun s =>
  .ok (if useRootExt2 path then s.rootExt2 else none)

variable (creds : Credentials)

def uidOf : UInt32 := UInt32.ofNat creds.euid
def gidOf : UInt32 := UInt32.ofNat creds.egid

def newNode (kind : NodeKind) (metadata : FileMetadata) (now : ℕ) : Node where
  path := path
  kind := kind
  metadata := metadata
  timestamps := ⟨now, now⟩
  data := .empty
  linkTarget := none

/-- The part of `create_file_with_mode_as` for a path on the ext2 root. -/
def createExt2 (path : Str) (creds : Credentials) (mode : UInt16) : V ℕ := do
  let found ← tryExt2 (metadata fs path)
  match found with
  | .ok m => do
    require (m.kind = .file) .notFile
    require ((fileMetadata m).canAccess creds .write) .permissionDenied
    onExt2 mapExt2Error (truncateFile fs path)
  | .error .notFound => do
    let parentPath ← lift (parentPath path)
    writableExt2 fs parentPath creds
    onExt2 mapExt2Error (createFile fs path (uidOf creds) (gidOf creds) mode)
  | .error e => fail (mapExt2Error e)
  pushOpenHandle (.ext2File path 0 .readWrite)

variable (mode : UInt16)

/-- The part of `create_file_with_mode_as` for an in-memory path. -/
def createNode : V ℕ := do
  ensureParentDirectory path (some (creds, .write))
  let found ← query fun s => .ok (s.position path)
  match found with
  | some i => do
    let target ← canonical i
    let node ← nodeAt target
    require (node.kind = .file) .notFile
    require (node.metadata.canAccess creds .write) .permissionDenied
    update fun s => s.modifyNode target fun n => { n with data := .empty }
    let now ← timestamp
    update fun s => s.modifyNode target fun n =>
      { n with timestamps := { n.timestamps with modifiedAt := now } }
    pushOpenHandle (.node i 0 .readWrite)
  | none => do
    let now ← timestamp
    let i ← pushNode (newNode path .file ⟨creds.euid, creds.egid, mode.toNat⟩ now)
    pushOpenHandle (.node i 0 .readWrite)

def createFileWithModeAs : V ℕ := do
  let path ← lift (normalizePath path)
  let root ← rootFor path
  match root with
  | some fs => createExt2 fs path creds (mode &&& 0o7777)
  | none => createNode path creds (mode &&& 0o7777)

def mkdirWithModeAs : V Unit := do
  let path ← lift (normalizePath path)
  let root ← rootFor path
  match root with
  | some fs => do
    let parentPath ← lift (parentPath path)
    let found ← tryExt2 (metadata fs path)
    require (!found.isOk) .alreadyExists
    searchableExt2 fs parentPath creds
    onExt2 mapExt2Error (createDir fs path (uidOf creds) (gidOf creds) mode)
  | none => do
    let found ← query fun s => .ok (s.position path)
    require (!found.isSome) .alreadyExists
    ensureParentDirectory path (some (creds, .write))
    let now ← timestamp
    let _ ← pushNode
      (newNode path .directory ⟨creds.euid, creds.egid, (mode &&& 0o7777).toNat⟩ now)
    pure ()

/-- The loop of `rmdir_as` over the nodes: a live node below `path` forbids its removal. -/
def refuseChildren (path : Str) : List Node → Res VfsError Unit
  | [] => .ok ()
  | node :: nodes =>
    if node.path = [] ∨ node.path = path then refuseChildren path nodes
    else do
      let parent ← parentPath node.path
      if parent = path then err .permissionDenied else refuseChildren path nodes

def clearPath (i : ℕ) : V Unit :=
  update fun s => s.modifyNode i fun n => { n with path := [] }

def rmdirAs : V Unit := do
  let path ← lift (normalizePath path)
  require (path ≠ ['/']) .permissionDenied
  let root ← rootFor path
  match root with
  | some fs => do
    let parentPath ← lift (parentPath path)
    searchableExt2 fs parentPath creds
    onExt2 mapExt2Error (rmdir fs path)
  | none => do
    ensureParentDirectory path (some (creds, .write))
    query fun s => refuseChildren path s.nodes
    let i ← query fun s => okOr (s.position path) .notFound
    let i ← canonical i
    let node ← nodeAt i
    require (node.kind = .directory) .notFile
    clearPath i

def NodeKind.isDevice : NodeKind → Bool
  | .device _ => true
  | _ => false

def unlinkAs : V Unit := do
  let path ← lift (normalizePath path)
  let root ← rootFor path
  match root with
  | some fs => do
    let parentPath ← lift (parentPath path)
    searchableExt2 fs parentPath creds
    onExt2 mapExt2Error (unlink fs path)
  | none => do
    ensureParentDirectory path (some (creds, .write))
    let i ← query fun s => okOr (s.position path) .notFound
    let node ← nodeAt i
    require (!(node.kind = .directory || node.kind.isDevice)) .notFile
    clearPath i

/-- The loop of `rename_as` that collects the new paths of the nodes below the old one. -/
def childRewrites (oldPrefix newPrefix : Str) (replaced : Option ℕ) :
    ℕ → List Node → Res VfsError (List (ℕ × Str))
  | _, [] => .ok []
  | i, node :: nodes =>
    if some i = replaced ∨ ¬ oldPrefix.isPrefixOf node.path then
      childRewrites oldPrefix newPrefix replaced (i + 1) nodes
    else do
      let rewritten ← replacePathPrefix node.path oldPrefix newPrefix
      let rest ← childRewrites oldPrefix newPrefix replaced (i + 1) nodes
      .ok ((i, rewritten) :: rest)

def setPath (s : State) (i : ℕ) (path : Str) : State :=
  s.modifyNode i fun n => { n with path := path }

variable (oldPath newPath : Str)

/-- The part of `rename_as` for in-memory paths. -/
def renameNode (creds : Credentials) : V Unit := do
  ensureParentDirectory oldPath (some (creds, .write))
  ensureParentDirectory newPath (some (creds, .write))
  let oldIndex ← query fun s => okOr (s.position oldPath) .notFound
  let replaced ← query fun s => .ok ((s.position newPath).filter (· ≠ oldIndex))
  let rewrites ← query fun s =>
    childRewrites (childPathPrefix oldPath) (childPathPrefix newPath) replaced 0 s.nodes
  match replaced with
  | some i => clearPath i
  | none => pure ()
  update fun s => setPath s oldIndex newPath
  update fun s => rewrites.foldl (fun s r => setPath s r.1 r.2) s

def renameAs (creds : Credentials) : V Unit := do
  let oldPath ← lift (normalizePath oldPath)
  let newPath ← lift (normalizePath newPath)
  require (oldPath ≠ ['/'] ∧ newPath ≠ ['/']) .permissionDenied
  require (useRootExt2 oldPath = useRootExt2 newPath) .notFound
  let root ← rootFor oldPath
  match root with
  | some fs => do
    let oldParentPath ← lift (parentPath oldPath)
    let newParentPath ← lift (parentPath newPath)
    let oldParent ← askExt2 mapExt2Error (metadata fs oldParentPath)
    let newParent ← askExt2 mapExt2Error (metadata fs newParentPath)
    require (oldParent.kind = .directory ∧ newParent.kind = .directory) .notFile
    let oldParent := fileMetadata oldParent
    let newParent := fileMetadata newParent
    require (oldParent.canAccess creds .write && oldParent.canAccess creds .execute &&
      newParent.canAccess creds .write && newParent.canAccess creds .execute) .permissionDenied
    onExt2 mapExt2Error (rename fs oldPath newPath)
  | none => renameNode oldPath newPath creds

def symlinkAs (target linkPath : Str) (creds : Credentials) : V Unit := do
  let linkPath ← lift (normalizePath linkPath)
  let root ← rootFor linkPath
  match root with
  | some fs => do
    let parentPath ← lift (parentPath linkPath)
    let found ← tryExt2 (lstatMetadata fs linkPath)
    require (!found.isOk) .alreadyExists
    searchableExt2 fs parentPath creds
    onExt2 mapExt2Error (symlink fs target linkPath (uidOf creds) (gidOf creds))
  | none => do
    let found ← query fun s => .ok (s.position linkPath)
    require (!found.isSome) .alreadyExists
    ensureParentDirectory linkPath (some (creds, .write))
    let now ← timestamp
    let data ← lift (FileData.fromBytes (asBytes target))
    let _ ← pushNode
      { newNode linkPath .symlink ⟨creds.euid, creds.egid, 0o777⟩ now with data := data }
    pure ()

/-- The part of `link_as` for in-memory paths. -/
def linkNode (creds : Credentials) : V Unit := do
  let found ← query fun s => .ok (s.position newPath)
  require (!found.isSome) .alreadyExists
  ensureParentDirectory newPath (some (creds, .write))
  let source ← query fun s => okOr (s.position oldPath) .notFound
  let target ← canonical source
  let node ← nodeAt target
  require (node.kind = .file) .notFile
  let now ← timestamp
  let _ ← pushNode
    { newNode newPath .file node.metadata now with
      timestamps := ⟨now, node.timestamps.modifiedAt⟩
      linkTarget := some target }
  pure ()

def linkAs (creds : Credentials) : V Unit := do
  let oldPath ← query fun s => resolveSymlinkPath s oldPath
  let newPath ← lift (normalizePath newPath)
  require (useRootExt2 oldPath = useRootExt2 newPath) .notFound
  if useRootExt2 oldPath then do
    let parentPath ← lift (parentPath newPath)
    let fs ← query fun s => okOr s.rootExt2 .notFound
    writableExt2 fs parentPath creds
    onExt2 mapExt2Error (link fs oldPath newPath)
  else linkNode oldPath newPath creds

end Ristux.Vfs
