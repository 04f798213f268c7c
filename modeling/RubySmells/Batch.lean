import RubySmells.FileTree.Discovery
import RubySmells.Source
import RubySmells.Walk

/-!
# Checking many files

A batch checks files one after the other, each with a fresh context, and stops
at the first that cannot be read or parsed. Each file is announced by a banner
before it is read. What is no path at all (`Breakdown`) breaks the batch off
without a report. Lists of targets may be nested as deep as they like here
(`Source.parse`).
-/

namespace RubySmells

/-- A line of the log. -/
inductive LogEntry
  /-- A file was read and is about to be parsed. -/
  | parsing (path : String)
  /-- A line of the trace of a walk. -/
  | traced (line : String)
  /-- The failure that stopped the batch. -/
  | failed (failure : Failure)
  deriving DecidableEq

namespace LogEntry

/-- Whether the line is written only on request. -/
def isDetail : LogEntry → Bool
  | .failed _ => false
  | _ => true

/-- A line of the log as it is written. -/
def render : LogEntry → String
  | .parsing path => "cleancode: DEBUG: parse sourcefile " ++ path
  | .traced line => "[DEBUG] " ++ line
  | .failed failure => "cleancode: ERROR: " ++ failure.render

end LogEntry

/-- What breaks a run off without a report. -/
inductive Breakdown
  /-- A path has a null character in it, with which it cannot even be handed
  to the system. -/
  | nullInPath
  deriving DecidableEq, Repr

/-- A breakdown in words. -/
def Breakdown.message : Breakdown → String
  | .nullInPath => "embedded null byte"

/-- What keeps a file from being checked. -/
inductive Halt
  /-- A failure, which is reported. -/
  | failure (f : Failure)
  | breakdown (b : Breakdown)
  deriving DecidableEq, Repr

/-- What came of one file. -/
structure Checked where
  log : List LogEntry
  outcome : Except Halt Walk

namespace Batch

/-- What is checked with: the grammar, the files, and whether classes, methods
and blocks have frames of their own. -/
structure Setup where
  grammar : Grammar
  files : FileTree
  nested : Bool := true

/-- The content of the file at a path. -/
def readFile (setup : Setup) (path : String) : Except Halt (List UInt8) :=
  if path.toList.contains (Char.ofNat 0) then .error (.breakdown .nullInPath)
  else
    match setup.files.read path with
    | .error fault => .error (.failure ⟨path, .access fault.message⟩)
    | .ok source => .ok source

/-- The simplified tree of a source. -/
def parseSource (setup : Setup) (path : String) (source : List UInt8) :
    Except Halt Node :=
  match Source.parse setup.grammar path source with
  | .error failure => .error (.failure failure)
  | .ok tree => .ok tree

/-- The simplified tree of the file at a path. -/
def parseFile (setup : Setup) (path : String) : Except Halt Node := do
  let source ← readFile setup path
  parseSource setup path source

/-- Checks the tree of a file. -/
def checkTree (setup : Setup) (path : String) (tree : Node) : Except Halt Walk :=
  match Walk.run path setup.nested tree with
  | .error fault => .error (.failure ⟨path, .general fault.message⟩)
  | .ok walk => .ok walk

/-- Parses and checks a source. -/
def checkSource (setup : Setup) (path : String) (source : List UInt8) :
    Except Halt Walk := do
  let tree ← parseSource setup path source
  checkTree setup path tree

/-- Reads, parses and checks one file. -/
def checkFile (setup : Setup) (path : String) : Checked :=
  match readFile setup path with
  | .error halt => ⟨[], .error halt⟩
  | .ok source =>
    match checkSource setup path source with
    | .error halt => ⟨[.parsing path], .error halt⟩
    | .ok walk => ⟨.parsing path :: walk.trace.map .traced, .ok walk⟩

/-- How a batch ended. -/
inductive Ending
  | passed
  | failed
  | brokenOff (b : Breakdown)
  deriving DecidableEq, Repr

/-- What a batch printed and logged, and how it ended. -/
structure Transcript where
  output : String := ""
  log : List LogEntry := []
  ending : Ending := .passed

/-- The two lines that announce a file. -/
def banner (path : String) : String :=
  "checking : " ++ path ++ "\n" ++ "==================" ++ "\n"

/-- Checks files in order until one cannot be checked. -/
def checkAll (setup : Setup) : List String → Transcript
  | [] => {}
  | path :: rest =>
    let checked := checkFile setup path
    match checked.outcome with
    | .error (.failure failure) =>
      { output := banner path
        log := checked.log ++ [.failed failure]
        ending := .failed }
    | .error (.breakdown b) =>
      { output := banner path
        log := checked.log
        ending := .brokenOff b }
    | .ok walk =>
      let after := checkAll setup rest
      { output := banner path ++ walk.output ++ after.output
        log := checked.log ++ after.log
        ending := after.ending }

/-- Checks every file that a list of paths stands for. -/
def run (setup : Setup) (paths : List String) : Transcript :=
  checkAll setup (setup.files.discover paths)

end Batch

end RubySmells
