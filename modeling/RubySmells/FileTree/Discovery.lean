import RubySmells.FileTree.Basic

/-!
# Finding source files

Which files a list of paths stands for. A path that is no directory stands for
itself. A directory stands for everything below it whose name ends in `.rb`,
directories of such a name included, in the order of the whole paths by code
point; names that start with a dot are passed over, and so is what is below
them. A directory is looked into only while its path is short enough to be
looked at (`FileTree.maxPathBytes`). The search is taken to go into directories
however many of them are inside each other, and to be allowed to read them.
-/

namespace RubySmells

/-- Whether a name is passed over. -/
def Entry.isHidden (e : Entry) : Bool :=
  e.name.toList.head? = some '.'

/-- Whether a name is that of a source file. -/
def Entry.isSource (e : Entry) : Bool :=
  ".rb".toList.isSuffixOf e.name.toList

mutual

/-- The paths of what counts as a source file at and below an entry, given the
path of the directory it is in. -/
def Entry.sources (above : String) : Entry → List String
  | .file name content =>
    let e : Entry := .file name content
    if e.isHidden then []
    else if e.isSource then [above ++ name]
    else []
  | .directory name entries =>
    let e : Entry := .directory name entries
    if e.isHidden then []
    else
      let path := above ++ name
      let below :=
        if FileTree.maxPathBytes ≤ path.utf8ByteSize then []
        else Entry.sourcesAll (path ++ "/") entries
      if e.isSource then path :: below else below

/-- The paths of what counts as a source file at and below entries. -/
def Entry.sourcesAll (above : String) : List Entry → List String
  | [] => []
  | e :: es => e.sources above ++ Entry.sourcesAll above es

end

namespace Path

/-- The path without the slashes at its end. -/
def stripSlashes (path : List Char) : List Char :=
  (path.reverse.dropWhile (· = '/')).reverse

/-- A character that stands for other characters in a pattern of names. -/
def isWildcard (c : Char) : Bool :=
  c = '*' || c = '?' || c = '['

/-- Slashes in a row become one. -/
def mergeSlashes : List Char → List Char
  | '/' :: '/' :: cs => mergeSlashes ('/' :: cs)
  | c :: cs => c :: mergeSlashes cs
  | [] => []

/-- How a directory is written in front of what was found below it. The path
is kept as it was given, but for the slashes at its end; from the first name
with a wildcard character on, which is matched name by name, slashes in a row
become one. -/
def spelled (path : List Char) : List Char :=
  let stripped := stripSlashes path
  if stripped.isEmpty then path
  else
    let plain := stripped.takeWhile (!isWildcard ·)
    let rest := stripped.dropWhile (!isWildcard ·)
    if rest.isEmpty then stripped ++ ['/']
    else
      let stem := (plain.reverse.takeWhile (· ≠ '/')).reverse
      let before := (plain.reverse.dropWhile (· ≠ '/')).reverse
      let head := if (stripSlashes before).isEmpty then before
        else stripSlashes before ++ ['/']
      head ++ mergeSlashes (stem ++ rest) ++ ['/']

end Path

namespace FileTree

/-- What is found in a directory, given how it is written in front of it. -/
def sourcesIn (spelled : String) (entries : Directory) : List String :=
  if maxPathBytes ≤ spelled.utf8ByteSize then []
  else (Entry.sourcesAll spelled entries).mergeSort fun a b => decide (a ≤ b)

/-- The files that a path stands for. -/
def expand (tree : FileTree) (path : String) : List String :=
  match tree.directory? path with
  | none => [path]
  | some entries => sourcesIn (String.ofList (Path.spelled path.toList)) entries

/-- The files that a list of paths stands for. -/
def discover (tree : FileTree) (paths : List String) : List String :=
  paths.flatMap tree.expand

end FileTree

end RubySmells
