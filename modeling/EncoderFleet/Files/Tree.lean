import EncoderFleet.Data.KeyMap
import EncoderFleet.Files.Fault
import EncoderFleet.Files.Path

/-!
# A tree of files

`FileTree` is a file system as a program sees it: what stands at each place, and the place where relative paths start.
A place is the list of names that leads to it from the root. The operations are the few that storing a document takes:
reading a whole file, writing one, making a directory with or without its parents, and renaming a file. Each answers
with the tree it leaves or with the fault that kept it from doing anything.

The tree has directories and files only: no links, and so one place for each file. Nobody lacks a permission, the disk
is never full, and nothing changes the tree between two operations of a program.
-/

namespace EncoderFleet

/-- What stands at a place. -/
inductive FileNode
  | directory
  | file (content : Bytes)
deriving DecidableEq

/-- A place in the tree: the names from the root. -/
abbrev Place := List String

/-- A file system and the directory where relative paths start. -/
structure FileTree where
  nodes : KeyMap Place FileNode := {}
  start : Place := []

namespace FileTree

/-- The longest name, in bytes. -/
def nameLimit : Nat := 255

/-- The longest path, in bytes, its end mark included. -/
def pathLimit : Nat := 4096

/-- An empty directory to work in. -/
def empty : FileTree :=
  let work : Place := ["work"]
  { nodes := KeyMap.insert {} work .directory, start := work }

/-- What stands at a place; the root is always a directory. -/
def node? (t : FileTree) (p : Place) : Option FileNode := if p = [] then some .directory else t.nodes.get? p

/-- Put something at a place. -/
def put (t : FileTree) (p : Place) (n : FileNode) : FileTree := { t with nodes := t.nodes.insert p n }

/-- Look what stands at a place; nothing can be looked for under a name that is too long. -/
def find (t : FileTree) (p : Place) : Except Fault (Option FileNode) :=
  if (p.getLast?).any fun name => nameLimit < name.utf8ByteSize then .error .nameTooLong else .ok (t.node? p)

/-- Walk from a place; every place that is left, or stepped on the spot in, must be a directory. -/
def walk (t : FileTree) : Place → List Path.Component → Except Fault Place
  | at_, [] => .ok at_
  | at_, c :: cs =>
    match t.find at_ with
    | .error f => .error f
    | .ok none => .error .notFound
    | .ok (some (.file _)) => .error .notDirectory
    | .ok (some .directory) =>
      match c with
      | .here => t.walk at_ cs
      | .up => t.walk at_.dropLast cs
      | .name s => t.walk (at_ ++ [s]) cs

/-- The place that a path names; nothing need stand there, but all before it must be directories. -/
def resolve (t : FileTree) (path : String) : Except Fault Place :=
  if path == "" then .error .notFound
  else if path.toList.contains '\x00' then .error .nulInName
  else if path.utf8ByteSize ≥ pathLimit then .error .nameTooLong
  else t.walk (if Path.isAbsolute path then [] else t.start) (Path.components path)

/-- Whether a directory stands at the path. -/
def isDirectory (t : FileTree) (path : String) : Bool :=
  match t.resolve path with
  | .ok p => t.node? p == some .directory
  | .error _ => false

/-- The content of a file. -/
def read (t : FileTree) (path : String) : Except Fault Bytes := do
  match ← t.find (← t.resolve path) with
  | none => .error .notFound
  | some .directory => .error .isDirectory
  | some (.file content) => if Path.namesDirectory path then .error .notDirectory else .ok content

/-- The text of a file. -/
def readText (t : FileTree) (path : String) : Except Fault String := do
  match Bytes.toString? (← t.read path) with
  | some s => .ok s
  | none => .error .notText

/-- Make a file of this content, or give it to the file that is there. -/
def write (t : FileTree) (path : String) (content : Bytes) : Except Fault FileTree := do
  let p ← t.resolve path
  if Path.namesDirectory path then .error .isDirectory
  else
    match ← t.find p with
    | some .directory => .error .isDirectory
    | _ => .ok (t.put p (.file content))

/-- Make a directory where nothing stands. -/
def makeDirectory (t : FileTree) (path : String) : Except Fault FileTree := do
  let p ← t.resolve path
  match ← t.find p with
  | some _ => .error .alreadyExists
  | none => .ok (t.put p .directory)

/-- Make the directories that lead to a path, at most `fuel` of them missing, and that at the path. Answers with the
tree that is left and the fault that stopped the work, if one did: directories made before it stay. -/
def makeDirectoriesWithin : Nat → FileTree → String → FileTree × Option Fault
  | 0, t, _ => (t, some .nameTooLong)
  | fuel + 1, t, path =>
    if path == "" then (t, none)
    else
      match t.makeDirectory path with
      | .ok t => (t, none)
      | .error .notFound =>
        match Path.parent? path with
        | none => (t, some .notFound)
        | some up =>
          match makeDirectoriesWithin fuel t up with
          | (t, some f) => (t, some f)
          | (t, none) =>
            match t.makeDirectory path with
            | .ok t => (t, none)
            | .error f => (t, if t.isDirectory path then none else some f)
      | .error f => (t, if t.isDirectory path then none else some f)

/-- Make a directory and those that lead to it, as far as they are missing. A path has at most one directory for each of
its characters. -/
def makeDirectories (t : FileTree) (path : String) : FileTree × Option Fault :=
  makeDirectoriesWithin (path.length + 1) t path

/-- Give a file another name; a file that has that name already is replaced. Both paths have to end in a name. -/
def rename (t : FileTree) (old new : String) : Except Fault FileTree := do
  let p ← t.resolve old
  let q ← t.resolve new
  if !(Path.endsInName old && Path.endsInName new) then .error .busy
  else
    match ← t.find p with
    | none => .error .notFound
    | some .directory => .error .isDirectory
    | some (.file content) =>
      let there ← t.find q
      if Path.namesDirectory new then .error .notDirectory
      else if there == some .directory then .error .isDirectory
      else if p = q then .ok t
      else .ok { t with nodes := (t.nodes.erase p).insert q (.file content) }

/-- Everything below the directory where paths start, each as a path from there; directories end in a slash. -/
def listing (t : FileTree) : List String :=
  let below := t.nodes.entries.filterMap fun e =>
    if t.start.isPrefixOf e.1 && e.1 != t.start then
      let name := "/".intercalate (e.1.drop t.start.length)
      some (match e.2 with | .directory => name ++ "/" | .file _ => name)
    else none
  below.mergeSort fun a b => !(b < a)

end FileTree

end EncoderFleet
