import Space.Support.Paths
import Space.Native.Write
import Space.Native.Reclaim
import Space.Native.Read
import Mathlib.Data.Char
import Mathlib.Data.List.Lex

/-!
# Views — Nfs

The file view: a namespace of nodes under absolute paths, each file a capsule of the shared
pipeline.  A text is the list of its characters, and the namespace a map from texts; what is done
under one lock is one operation (`NfsOp`), and the methods are programs over these operations and
those of the pipeline.  The time is an argument of each call.

`Component::Prefix` does not occur on Unix, where `/` alone separates the components of a path.
-/

namespace Space
open Support Prog

/-! ### Paths -/

inductive Component where
  | rootDir
  | curDir
  | parentDir
  | normal (part : Text)
  deriving DecidableEq, Repr

/-- `Path::components`: empty pieces are dropped, and so is every `.` but a leading one. -/
def pathComponents (path : Text) : List Component :=
  let pieces := path.splitOn '/'
  (if path.head? = some '/' then [.rootDir]
    else if pieces.head? = some ['.'] then [.curDir] else []) ++
  pieces.filterMap fun piece =>
    if piece = [] ∨ piece = ['.'] then none
    else if piece = ['.', '.'] then some .parentDir
    else some (.normal piece)

/-- The text of a path with these components. -/
def fullPath (components : List Text) : Text :=
  if components = [] then ['/'] else '/' :: ['/'].intercalate components

/-- A path in its canonical form. -/
structure NormalizedPath where
  full : Text
  components : List Text
  full_eq : full = fullPath components
  deriving DecidableEq

namespace NormalizedPath

def ofComponents (components : List Text) : NormalizedPath := ⟨fullPath components, components, rfl⟩

def isRoot (p : NormalizedPath) : Bool := p.components.isEmpty

def name (p : NormalizedPath) : Option Text := p.components.getLast?

def parentPath (p : NormalizedPath) : Option Text :=
  if p.components = [] then none
  else if p.components.length = 1 then some ['/']
  else some ('/' :: ['/'].intercalate p.components.dropLast)

end NormalizedPath

/-- `part.replace('\\', "/")`. -/
def replaceBackslash (part : Text) : Text := part.map fun c => if c = '\\' then '/' else c

/-- What one component does to those before it. -/
def normalizeStep (components : List Text) : Component → List Text
  | .rootDir => []
  | .curDir => components
  | .parentDir => components.dropLast
  | .normal part =>
    if replaceBackslash part = [] then components else components ++ [replaceBackslash part]

/-- `normalize_path`.  A relative path is rooted at `/`, so no path is refused. -/
def normalizePath (path : Text) : NormalizedPath :=
  let candidate := if path = [] then ['/'] else path
  .ofComponents ((pathComponents candidate).foldl normalizeStep [])

/-! ### The namespace -/

inductive NfsNodeKind where
  | directory
  | file (capsuleId : CapsuleId) (size : Nat)
  deriving DecidableEq, Repr

structure NfsNode where
  name : Text
  path : Text
  kind : NfsNodeKind
  createdAt : Nat
  modifiedAt : Nat
  deriving DecidableEq, Repr

namespace NfsNode

def directory (path name : Text) (timestamp : Nat) : NfsNode :=
  ⟨name, path, .directory, timestamp, timestamp⟩

def file (path name : Text) (capsuleId : CapsuleId) (size timestamp : Nat) : NfsNode :=
  ⟨name, path, .file capsuleId size, timestamp, timestamp⟩

def isDirectory (n : NfsNode) : Bool := decide (n.kind = .directory)

/-- The capsule of a file. -/
def capsule (n : NfsNode) : Option CapsuleId :=
  match n.kind with
  | .directory => none
  | .file capsuleId _ => some capsuleId

end NfsNode

inductive EntryKind where
  | file
  | directory
  deriving DecidableEq, Repr

structure NfsEntry where
  path : Text
  name : Text
  kind : EntryKind
  size : Nat
  createdAt : Nat
  modifiedAt : Nat
  capsuleId : Option CapsuleId
  deriving DecidableEq, Repr

def NfsNode.toEntry (n : NfsNode) : NfsEntry :=
  match n.kind with
  | .directory => ⟨n.path, n.name, .directory, 0, n.createdAt, n.modifiedAt, none⟩
  | .file capsuleId size =>
    ⟨n.path, n.name, .file, size, n.createdAt, n.modifiedAt, some capsuleId⟩

abbrev Namespace := Table Text NfsNode

/-- An error with a path in its text. -/
def pathError (text : String) (path : Text) : Error := .msg (text ++ String.ofList path)

namespace Namespace

def ensureRootNode (nodes : Namespace) (timestamp : Nat) : Namespace :=
  match nodes.lookup ['/'] with
  | some node => nodes.insert ['/'] { node with modifiedAt := timestamp }
  | none => nodes.insert ['/'] (.directory ['/'] ['/'] timestamp)

/-- The loop of `ensure_directory`, past the components `current`. -/
def ensureComponents (timestamp : Nat) (current : List Text) :
    List Text → Namespace → Except Error Unit × Namespace
  | [], nodes => (.ok (), nodes)
  | part :: parts, nodes =>
    let current := current ++ [part]
    let currentPath := '/' :: ['/'].intercalate current
    match nodes.lookup currentPath with
    | some node =>
      if node.isDirectory then
        ensureComponents timestamp current parts
          (nodes.insert currentPath { node with modifiedAt := timestamp })
      else (.error (pathError "Path conflict with file: " currentPath), nodes)
    | none =>
      ensureComponents timestamp current parts
        (nodes.insert currentPath (.directory currentPath part timestamp))

def ensureDirectory (nodes : Namespace) (path : NormalizedPath) (timestamp : Nat) :
    Except Error Unit × Namespace :=
  ensureComponents timestamp [] path.components (ensureRootNode nodes timestamp)

/-- `nodes.get_mut(path)` and its `modified_at`, if it is there. -/
def touch (nodes : Namespace) (path : Text) (now : Nat) : Namespace :=
  match nodes.lookup path with
  | some node => nodes.insert path { node with modifiedAt := now }
  | none => nodes

/-- The check before a file is written. -/
def checkCollision (nodes : Namespace) (path : NormalizedPath) : Except Error Unit :=
  if (nodes.lookup path.full).any NfsNode.isDirectory then
    .error (.msg "Cannot overwrite directory with file")
  else .ok ()

/-- What `write_file` does under the write lock; the capsule it supersedes. -/
def insertFile (nodes : Namespace) (path parent : NormalizedPath) (capsuleId : CapsuleId)
    (size now : Nat) : Except Error (Option CapsuleId) × Namespace :=
  match ensureDirectory nodes parent now with
  | (.error e, nodes) => (.error e, nodes)
  | (.ok _, nodes) =>
    let oldCapsule := (nodes.lookup path.full).bind NfsNode.capsule
    match path.name with
    | none => (.error (.msg "Invalid file path"), nodes)
    | some fileName =>
      let nodes := nodes.insert path.full (.file path.full fileName capsuleId size now)
      (.ok oldCapsule, touch nodes parent.full now)

/-- What `delete` does under the write lock; the capsule it removes. -/
def remove (nodes : Namespace) (path : NormalizedPath) (now : Nat) :
    Except Error (Option CapsuleId) × Namespace :=
  match nodes.lookup path.full with
  | none => (.error (pathError "No such path: " path.full), nodes)
  | some node =>
    if node.isDirectory && nodes.keys.any fun k => decide (path.full ++ ['/'] <+: k) then
      (.error (pathError "Directory not empty: " path.full), nodes)
    else
      let nodes := nodes.erase path.full
      (.ok node.capsule, match path.parentPath with
        | some parentPath => touch nodes parentPath now
        | none => nodes)

/-- The entries in the order of their keys. -/
def inOrder (nodes : Namespace) : List (Text × NfsNode) :=
  (nodes.entries.map fun e => (e.1, e.2)).mergeSort fun a b => decide (a.1 ≤ b.1)

/-- The loop of `list_directory`, at one entry. -/
def listEntry (path : NormalizedPath) (key : Text) (node : NfsNode) : Option NfsEntry :=
  let pre := if path.isRoot then ['/'] else path.full ++ ['/']
  if key = path.full then none
  else if ¬ pre <+: key then none
  else
    let remainder := key.drop pre.length
    if remainder = [] ∨ '/' ∈ remainder then none else some node.toEntry

def listDirectory (nodes : Namespace) (path : Text) : Except Error (List NfsEntry) :=
  let path := normalizePath path
  match nodes.lookup path.full with
  | none => .error (pathError "No such directory: " path.full)
  | some dir =>
    if dir.isDirectory then .ok (nodes.inOrder.filterMap fun e => listEntry path e.1 e.2)
    else .error (pathError "Path is not a directory: " path.full)

end Namespace

/-! ### The view -/

/-- The namespace in memory, and the file it is saved to, if it is saved. -/
structure NfsView where
  nodes : Namespace
  persistent : Bool
  file : Option Namespace

namespace NfsView

/-- `NfsView::new`. -/
def new (now : Nat) : NfsView := ⟨Namespace.ensureRootNode ∅ now, false, none⟩

/-- `NfsView::open`, over a file that may not exist. -/
def «open» (file : Option Namespace) (now : Nat) : NfsView :=
  ⟨(file.getD ∅).ensureRootNode now, true, file⟩

end NfsView

/-- What is done under one lock. -/
inductive NfsOp where
  | checkCollision (path : NormalizedPath)
  | insertFile (path parent : NormalizedPath) (capsuleId : CapsuleId) (size now : Nat)
  | mkdir (path : NormalizedPath) (now : Nat)
  | remove (path : NormalizedPath) (now : Nat)
  | persist

def NfsOp.Res : NfsOp → Type
  | .checkCollision _ => Unit
  | .insertFile _ _ _ _ _ => Option CapsuleId
  | .mkdir _ _ => Unit
  | .remove _ _ => Option CapsuleId
  | .persist => Unit

abbrev NfsSig : Signature := ⟨NfsOp, NfsOp.Res⟩

namespace NfsView

/-- A change of the namespace. -/
def update {α : Type} (v : NfsView) (r : Except Error α × Namespace) : Except Error α × NfsView :=
  (r.1, { v with nodes := r.2 })

/-- What the operations do. -/
def exec : Handler NfsSig Error NfsView
  | .checkCollision path, v => (v.nodes.checkCollision path, v)
  | .insertFile path parent capsuleId size now, v =>
    v.update (v.nodes.insertFile path parent capsuleId size now)
  | .mkdir path now, v => v.update (v.nodes.ensureDirectory path now)
  | .remove path now, v => v.update (v.nodes.remove path now)
  | .persist, v => (.ok (), if v.persistent then { v with file := some v.nodes } else v)

end NfsView

/-- Programs of the file view: the operations of the pipeline and its own. -/
abbrev NfsProg := Prog (StoreSig.sum NfsSig) Error

namespace NfsProg

def checkCollision (path : NormalizedPath) : NfsProg Unit :=
  performInr (T := NfsSig) (.checkCollision path)

def insertFile (path parent : NormalizedPath) (capsuleId : CapsuleId) (size now : Nat) :
    NfsProg (Option CapsuleId) :=
  performInr (T := NfsSig) (.insertFile path parent capsuleId size now)

def ensureDirectory (path : NormalizedPath) (now : Nat) : NfsProg Unit :=
  performInr (T := NfsSig) (.mkdir path now)

def remove (path : NormalizedPath) (now : Nat) : NfsProg (Option CapsuleId) :=
  performInr (T := NfsSig) (.remove path now)

def persist : NfsProg Unit := performInr (T := NfsSig) .persist

end NfsProg

namespace NfsView
variable (P : Primitives)

/-- `let _ = self.pipeline.delete_capsule(old_capsule)`, if there is one. -/
def dropCapsule : Option CapsuleId → NfsProg Unit
  | some id => discard (WritePipeline.deleteCapsule id).inl.attempt
  | none => pure ()

/-- `write_file`, once the path and its parent are known. -/
def writeAt (capsuleId : CapsuleId) (pathInfo parentInfo : NormalizedPath) (data : Bytes)
    (now : Nat) : NfsProg CapsuleId := do
  NfsProg.checkCollision pathInfo
  let id ← (WritePipeline.writeCapsule P capsuleId data).inl
  let oldCapsule ← NfsProg.insertFile pathInfo parentInfo id data.length now
  dropCapsule oldCapsule
  NfsProg.persist
  return id

/-- `write_file`; the pipeline gives the capsule the identifier `capsuleId`. -/
def writeFile (capsuleId : CapsuleId) (path : Text) (data : Bytes) (now : Nat) :
    NfsProg CapsuleId :=
  if (normalizePath path).isRoot then .fail (.msg "Cannot write file at root")
  else
    match (normalizePath path).parentPath with
    | none => .fail (.msg "File path must have a parent directory")
    | some parentPath =>
      writeAt P capsuleId (normalizePath path) (normalizePath parentPath) data now

def mkdir (path : Text) (now : Nat) : NfsProg Unit := do
  NfsProg.ensureDirectory (normalizePath path) now
  NfsProg.persist

/-- `delete`, once the path is known. -/
def deleteAt (pathInfo : NormalizedPath) (now : Nat) : NfsProg Unit := do
  let removedCapsule ← NfsProg.remove pathInfo now
  dropCapsule removedCapsule
  NfsProg.persist

def delete (path : Text) (now : Nat) : NfsProg Unit :=
  if (normalizePath path).isRoot then .fail (.msg "Cannot delete root directory")
  else deleteAt (normalizePath path) now

/-- `read_file`. -/
def readFile (v : NfsView) (path : Text) : Native Bytes :=
  match v.nodes.lookup (normalizePath path).full with
  | none => .fail (pathError "No such file: " (normalizePath path).full)
  | some node =>
    match node.kind with
    | .directory => .fail (pathError "Path is a directory: " node.path)
    | .file capsuleId _ => WritePipeline.readCapsule P capsuleId

/-- `metadata`. -/
def metadata (v : NfsView) (path : Text) : Except Error NfsEntry :=
  match v.nodes.lookup (normalizePath path).full with
  | none => .error (pathError "No such path: " (normalizePath path).full)
  | some node => .ok node.toEntry

end NfsView

/-- A call of a client. -/
inductive NfsCall where
  | writeFile (capsuleId : CapsuleId) (path : Text) (data : Bytes) (now : Nat)
  | mkdir (path : Text) (now : Nat)
  | delete (path : Text) (now : Nat)

namespace NfsCall

def path : NfsCall → Text
  | writeFile _ path _ _ => path
  | mkdir path _ => path
  | delete path _ => path

/-- The data a call writes. -/
def data : NfsCall → Bytes
  | writeFile _ _ data _ => data
  | _ => []

def program (P : Primitives) : NfsCall → NfsProg Unit
  | writeFile capsuleId path data now => discard (NfsView.writeFile P capsuleId path data now)
  | mkdir path now => NfsView.mkdir path now
  | delete path now => NfsView.delete path now

end NfsCall

end Space
