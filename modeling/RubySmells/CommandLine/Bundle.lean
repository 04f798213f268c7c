import RubySmells.FileTree.Basic
import RubySmells.Source
import RubySmells.Text.Quoted

/-!
# Bundles

Files in one text, with what the grammar made of them, so that a run needs
neither a disk nor a grammar. A bundle has one record on each line; the cells
of a record are divided by tabulators, texts are quoted, and bytes are written
in hexadecimal.

* `here 'path'` makes a directory the working directory, which is the root as
  long as there is no such record;
* `dir 'path'` is a directory;
* `file 'path' bytes` is a file;
* `node 'type' named missing 'field' start end row column count` is a node of
  a concrete syntax tree, after the `count` trees below it; the field is a
  dash where the node fills none;
* `parsed fault` ends the tree of the file before it.
-/

namespace RubySmells

/-- Files and their trees. -/
structure Bundle where
  files : FileTree := {}
  trees : List (List UInt8 × Parsed) := []

/-- The grammar of a bundle: it knows the trees of the files in it. -/
def Bundle.grammar (b : Bundle) : Grammar :=
  fun source => (b.trees.lookup source).getD default

namespace Bundle

/-! ## Cells -/

/-- The pieces of a line between tabulators. -/
def cells : List Char → List (List Char)
  | [] => [[]]
  | c :: cs =>
    if c = '\t' then [] :: cells cs
    else
      match cells cs with
      | [] => [[c]]
      | s :: ss => (c :: s) :: ss

/-- A quoted text. -/
def text? (cell : List Char) : Option String :=
  (Text.Quoted.decode cell).map String.ofList

/-- A quoted text, or a dash for none. -/
def optionalText? (cell : List Char) : Option (Option String) :=
  if cell = ['-'] then some none else (text? cell).map some

/-- A number in base ten. -/
def number? (cell : List Char) : Option Nat :=
  if cell.isEmpty then none
  else
    cell.foldlM (fun n c =>
      if c.isDigit then some (n * 10 + (c.toNat - 0x30)) else none) 0

/-- Yes or no, as one or zero. -/
def flag? (cell : List Char) : Option Bool :=
  match cell with
  | ['0'] => some false
  | ['1'] => some true
  | _ => none

/-- Bytes, two digits for each. -/
def bytes? : List Char → Option (List UInt8)
  | [] => some []
  | [_] => none
  | a :: b :: rest => do
    let n ← Text.Quoted.hexNumber? [a, b]
    let bytes ← bytes? rest
    return n.toUInt8 :: bytes

/-! ## Records -/

/-- A bundle being read: the trees not yet below another one, the last first,
and the content of the last file. -/
structure Reader where
  bundle : Bundle := {}
  pending : List Cst := []
  source : List UInt8 := []

/-- Puts a node over the last trees. -/
def Reader.node (r : Reader) (info : Cst.Info) (count : Nat) : Option Reader :=
  if count ≤ r.pending.length then
    some { r with
      pending := .mk info (r.pending.take count).reverse :: r.pending.drop count }
  else none

/-- Reads one record. -/
def Reader.record (r : Reader) (line : List Char) : Option Reader :=
  match cells line with
  | [tag, a] =>
    if tag = "here".toList then do
      let path ← text? a
      return { r with bundle.files := r.bundle.files.enter path }
    else if tag = "dir".toList then do
      let path ← text? a
      return { r with bundle.files := r.bundle.files.addDirectory path }
    else if tag = "parsed".toList then do
      let hasError ← flag? a
      match r.pending with
      | [root] =>
        return { r with
          bundle.trees := r.bundle.trees ++ [(r.source, ⟨root, hasError⟩)]
          pending := [] }
      | _ => none
    else none
  | [tag, a, b] =>
    if tag = "file".toList then do
      let path ← text? a
      let content ← bytes? b
      return { r with
        bundle.files := r.bundle.files.addFile path content
        source := content }
    else none
  | [tag, a, b, c, d, e, f, g, h, i] =>
    if tag = "node".toList then do
      let info : Cst.Info :=
        { type := ← text? a
          named := ← flag? b
          missing := ← flag? c
          field := ← optionalText? d
          startByte := ← number? e
          endByte := ← number? f
          row := ← number? g
          column := ← number? h }
      r.node info (← number? i)
    else none
  | _ => none

/-- Reads the lines of a bundle, or finds the number of the first line that is
no record. -/
def ofLinesFrom (number : Nat) (r : Reader) : List (List Char) → Except Nat Bundle
  | [] => .ok r.bundle
  | line :: lines =>
    match r.record line with
    | some r => ofLinesFrom (number + 1) r lines
    | none => .error number

/-- The bundle in the lines of a text. -/
def ofLines (lines : List String) : Except Nat Bundle :=
  ofLinesFrom 1 {} (lines.map String.toList)

end Bundle

end RubySmells
