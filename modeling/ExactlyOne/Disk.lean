import ExactlyOne.Host

/-!
A tree of files as a value, with a working directory in it.

`Disk.host` answers a run as a system with these files would.
-/

namespace ExactlyOne

inductive FileTree where
  | file (content : List UInt8)
  | directory (entries : List (String × FileTree))
  deriving Repr, Inhabited

namespace FileTree

def kind : FileTree → FileKind
  | .file _ => .file
  | .directory _ => .directory

def child? (name : String) : FileTree → Option FileTree
  | .file _ => none
  | .directory entries => (entries.find? (·.1 == name)).map Prod.snd

def get? (tree : FileTree) : List String → Option FileTree
  | [] => some tree
  | name :: rest => (tree.child? name).bind (·.get? rest)

def put (new : FileTree) : List String → FileTree → FileTree
  | [], _ => new
  | name :: rest, tree =>
    let entries := match tree with
      | .directory entries => entries
      | .file _ => []
    let old := ((FileTree.directory entries).child? name).getD (.directory [])
    .directory ((name, put new rest old) :: entries.filter (·.1 != name))

mutual

def files (path : String) : FileTree → List (String × List UInt8)
  | .file content => [(path, content)]
  | .directory entries => filesIn path entries

def filesIn (path : String) : List (String × FileTree) → List (String × List UInt8)
  | [] => []
  | (name, tree) :: rest => tree.files (joinPath path name) ++ filesIn path rest

end

end FileTree

/-- The tree from its root, and the names that lead to the working directory. -/
structure Disk where
  root : FileTree
  current : List String
  deriving Repr

namespace Disk

def longestName : Nat := 255

def pathLimit : Nat := 4096

def checkPath (path : String) : Except OsError Unit := do
  if path.toList.contains '\x00' then throw .nulInName
  if path.isEmpty then throw .notFound
  if pathLimit ≤ path.utf8ByteSize then throw .nameTooLong

def components (path : String) : List String := (path.splitOn "/").filter (· != "")

def start (disk : Disk) (path : String) : List String :=
  if path.startsWith "/" then [] else disk.current

def isSilent (component : String) : Bool := component = "" || component = "."

def dropSilentEnd (components : List String) : List String :=
  (components.reverse.dropWhile isSilent).reverse

/-- The path without its last component, and without what says nothing in front of that. The root
has no parent; that of a single name is empty. -/
def parentPath? (path : String) : Option String :=
  match path.splitOn "/" with
  | [] => none
  | first :: rest =>
    let rest := dropSilentEnd rest
    if rest.isEmpty then (if first.isEmpty then none else some "")
    else
      let front := dropSilentEnd rest.dropLast
      some (if front.isEmpty && first.isEmpty then "/" else "/".intercalate (first :: front))

/-- One step from a place, which must be a directory; nothing need be there. -/
def step (disk : Disk) (place : List String) (component : String) :
    Except OsError (List String) :=
  match (disk.root.get? place).map FileTree.kind with
  | none => .error .notFound
  | some .file => .error .notDirectory
  | some .directory =>
    if component = "." then .ok place
    else if component = ".." then .ok place.dropLast
    else if longestName < component.utf8ByteSize then .error .nameTooLong
    else .ok (place ++ [component])

def resolve (disk : Disk) (path : String) : Except OsError (List String × FileTree) := do
  checkPath path
  let place ← (components path).foldlM disk.step (disk.start path)
  let place ← if path.endsWith "/" then disk.step place "." else pure place
  match disk.root.get? place with
  | some tree => pure (place, tree)
  | none => throw .notFound

def read (disk : Disk) (path : String) : Except OsError (List UInt8) := do
  match (← disk.resolve path).2 with
  | .file content => pure content
  | .directory _ => throw .isDirectory

def kind? (disk : Disk) (path : String) : Option FileKind :=
  match disk.resolve path with
  | .ok (_, tree) => some tree.kind
  | .error _ => none

def list (disk : Disk) (path : String) : Except OsError (List String) := do
  match (← disk.resolve path).2 with
  | .file _ => throw .notDirectory
  | .directory entries => pure (entries.map Prod.fst)

def put (disk : Disk) (place : List String) (tree : FileTree) : Disk :=
  { disk with root := tree.put place disk.root }

def locate (disk : Disk) (path : String) : Except OsError (List String × String) := do
  checkPath path
  let names := components path
  let directory ← names.dropLast.foldlM disk.step (disk.start path)
  pure (← disk.step directory ".", names.getLast?.getD ".")

def makeDirectory (disk : Disk) (path : String) : Except OsError Disk := do
  let (directory, name) ← disk.locate path
  let place ← disk.step directory name
  if (disk.root.get? place).isSome then throw .alreadyExists
  pure (disk.put place (.directory []))

/-- A directory that is there already is as good as a new one. -/
def ensureDirectory (disk : Disk) (path : String) : Except OsError Disk :=
  match disk.makeDirectory path with
  | .error .alreadyExists =>
    if disk.kind? path = some .directory then .ok disk else .error .alreadyExists
  | result => result

def ensureDirectories : (fuel : Nat) → (disk : Disk) → (path : String) → Except OsError Disk
  | 0, disk, _ => .ok disk
  | fuel + 1, disk, path =>
    if path.isEmpty then .ok disk
    else match disk.ensureDirectory path, parentPath? path with
      | .error .notFound, some parent => do
        let disk ← ensureDirectories fuel disk parent
        disk.ensureDirectory path
      | result, _ => result

def writeFile (disk : Disk) (path : String) (content : List UInt8) : Except OsError Disk := do
  let (directory, name) ← disk.locate path
  if path.endsWith "/" then throw .isDirectory
  let place ← disk.step directory name
  match disk.root.get? place with
  | some (.directory _) => throw .isDirectory
  | _ => pure (disk.put place (.file content))

def write (disk : Disk) (path : String) (content : List UInt8) : Except OsError Disk := do
  let parent := (parentPath? path).getD ""
  (← ensureDirectories (path.length + 1) disk parent).writeFile path content

def files (disk : Disk) : List (String × List UInt8) :=
  ((disk.root.get? disk.current).map (FileTree.files "")).getD []

def host : Host (StateM Disk) where
  read path := do pure ((← get).read path)
  kind? path := do pure ((← get).kind? path)
  list path := do pure ((← get).list path)
  write path content := do
    match (← get).write path (utf8 content) with
    | .ok disk => do
      set disk
      pure (.ok ())
    | .error error => pure (.error error)

end Disk

end ExactlyOne
