/-!
# File trees

The files and directories of a system, and how paths lead to them. A path is
followed name by name, from the root if it starts with a slash and from the
working directory otherwise: an empty name or a dot stays, two dots go up, and
anything else must be in the directory reached so far. The root has nothing
above it; there two dots stay.
-/

namespace RubySmells

/-- A file or a directory, with its name. -/
inductive Entry
  | file (name : String) (content : List UInt8)
  | directory (name : String) (entries : List Entry)
  deriving Repr

namespace Entry

def name : Entry → String
  | .file n _ => n
  | .directory n _ => n

end Entry

/-- What is in a directory. -/
abbrev Directory := List Entry

/-- The files of a system, seen from a working directory. -/
structure FileTree where
  /-- What is in the root. -/
  root : Directory := []
  /-- The names that lead from the root to the working directory. -/
  here : List String := []
  deriving Repr

/-- Why a path does not lead to a file. -/
inductive AccessFault
  | missing
  | notDirectory
  | isDirectory
  | nameTooLong
  deriving DecidableEq, Repr

/-- The system's words for it. -/
def AccessFault.message : AccessFault → String
  | .missing => "No such file or directory"
  | .notDirectory => "Not a directory"
  | .isDirectory => "Is a directory"
  | .nameTooLong => "File name too long"

/-! ## Paths -/

/-- The pieces between the slashes of a path, empty ones included. -/
def Path.segments : List Char → List (List Char)
  | [] => [[]]
  | c :: cs =>
    if c = '/' then [] :: segments cs
    else
      match segments cs with
      | [] => [[c]]
      | s :: ss => (c :: s) :: ss

/-- The names along a path. -/
def Path.names (path : String) : List String :=
  (Path.segments path.toList).map String.ofList

namespace FileTree

/-- How many bytes a name may have. -/
def maxNameBytes : Nat := 255

/-- From how many bytes on a path is not even looked at. -/
def maxPathBytes : Nat := 4096

/-- What a path leads to. -/
inductive Found
  | file (content : List UInt8)
  | directory (entries : Directory)

/-- Follows names from a directory, given the directories above it, the one it
is in first. -/
def follow (above : List Directory) (here : Directory) :
    List String → Except AccessFault Found
  | [] => .ok (.directory here)
  | name :: rest =>
    if name = "" ∨ name = "." then follow above here rest
    else if name = ".." then
      match above with
      | [] => follow [] here rest
      | up :: more => follow more up rest
    else if maxNameBytes < name.utf8ByteSize then .error .nameTooLong
    else
      match here.find? (·.name = name) with
      | none => .error .missing
      | some (.directory _ entries) => follow (here :: above) entries rest
      | some (.file _ content) =>
        if rest.isEmpty then .ok (.file content) else .error .notDirectory

/-- The names that lead to where a path starts. -/
def start (tree : FileTree) (path : String) : List String :=
  if path.toList.head? = some '/' then [] else tree.here

/-- What a path leads to. -/
def lookup (tree : FileTree) (path : String) : Except AccessFault Found :=
  if path = "" then .error .missing
  else if maxPathBytes ≤ path.utf8ByteSize then .error .nameTooLong
  else follow [] tree.root (tree.start path ++ Path.names path)

/-- The content of the file at a path. -/
def read (tree : FileTree) (path : String) : Except AccessFault (List UInt8) :=
  match lookup tree path with
  | .ok (.file content) => .ok content
  | .ok (.directory _) => .error .isDirectory
  | .error fault => .error fault

/-- The directory at a path. -/
def directory? (tree : FileTree) (path : String) : Option Directory :=
  match lookup tree path with
  | .ok (.directory entries) => some entries
  | _ => none

/-! ## Making trees -/

/-- What is in the directory with a name; nothing if there is none. -/
def entriesOf (name : String) (entries : Directory) : Directory :=
  match entries.find? (·.name = name) with
  | some (.directory _ inner) => inner
  | _ => []

/-- Puts an entry in place of the one with its name, or at the end. -/
def put (entry : Entry) (entries : Directory) : Directory :=
  match entries with
  | [] => [entry]
  | e :: es => if e.name = entry.name then entry :: es else e :: put entry es

/-- Puts a file, or makes a directory, at the end of a row of names; the
directories on the way are made where they are missing. -/
def place (content : Option (List UInt8)) : List String → Directory → Directory
  | [], entries => entries
  | name :: rest, entries =>
    match rest, content with
    | [], some bytes => put (.file name bytes) entries
    | _, _ => put (.directory name (place content rest (entriesOf name entries))) entries

/-- Goes along names from a directory, given by the names that lead to it from
the root, and makes the directories that are missing. -/
def settle (root : Directory) (here : List String) :
    List String → Directory × List String
  | [] => (root, here)
  | name :: rest =>
    if name = "" ∨ name = "." then settle root here rest
    else if name = ".." then settle root here.dropLast rest
    else
      let there := here ++ [name]
      settle (place none there root) there rest

/-- The tree with a directory at a path. -/
def addDirectory (tree : FileTree) (path : String) : FileTree :=
  { tree with root := (settle tree.root (tree.start path) (Path.names path)).1 }

/-- The tree with a file at a path. -/
def addFile (tree : FileTree) (path : String) (content : List UInt8) : FileTree :=
  let names := Path.names path
  let (root, here) := settle tree.root (tree.start path) names.dropLast
  match names.getLast? with
  | some name => { tree with root := place (some content) (here ++ [name]) root }
  | none => { tree with root := root }

/-- The tree seen from the directory at a path, which is made where it is
missing. -/
def enter (tree : FileTree) (path : String) : FileTree :=
  let (root, here) := settle tree.root (tree.start path) (Path.names path)
  { root := root, here := here }

end FileTree

end RubySmells
