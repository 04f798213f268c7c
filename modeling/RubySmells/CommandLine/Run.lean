import RubySmells.Batch
import RubySmells.CommandLine.Arguments

/-!
# The command line

From the arguments to what is printed and the exit status: zero when every
file was checked, one when a file could not be, two for arguments that make no
sense. A run that breaks off has no status of its own.
-/

namespace RubySmells.CommandLine

/-- What a run leaves behind. -/
structure Exit where
  status : Nat
  stdout : String := ""
  stderr : String := ""
  deriving DecidableEq, Repr

/-- The line that shows how the program is called. -/
def usage : String :=
  "usage: cleancode [-h] [--unscoped] [--verbose] [PATH ...]\n"

/-- What is printed when help is asked for. -/
def help : String :=
  usage ++ "\n" ++
    "Warn about long parameter lists, boolean flag arguments, complex methods and " ++
    "law of demeter violations in Ruby code\n\n" ++
    "positional arguments:\n" ++
    "  PATH           Ruby file or directory to check (default: current directory)\n\n" ++
    "options:\n" ++
    "  -h, --help     show this help message and exit\n" ++
    "  --unscoped     Do not restore class/method names and parameters on leaving a\n" ++
    "                 scope\n" ++
    "  --verbose, -v  Log parsing and traversal details to stderr\n\n" ++
    "Examples:\n" ++
    "  # Every .rb file below the current directory\n" ++
    "  cleancode\n\n" ++
    "  # Selected files and directories\n" ++
    "  cleancode app/models lib/tasks/import.rb\n\n" ++
    "  # Same output as the original tool: names and parameters are not\n" ++
    "  # restored when leaving a nested class, method or block\n" ++
    "  cleancode --unscoped\n" ++
    "        \n"

/-- What the log writes: details only on request. -/
def logText (verbose : Bool) (log : List LogEntry) : String :=
  String.join ((log.filter fun e => verbose || !e.isDetail).map (·.render ++ "\n"))

/-- Checks what the options ask for. -/
def check (grammar : Grammar) (files : FileTree) (options : Options) :
    Except Breakdown Exit :=
  let transcript := Batch.run ⟨grammar, files, !options.flat⟩ options.paths
  let exit := fun status : Nat =>
    { status := status
      stdout := transcript.output
      stderr := logText options.verbose transcript.log : Exit }
  match transcript.ending with
  | .passed => .ok (exit 0)
  | .failed => .ok (exit 1)
  | .brokenOff b => .error b

/-- A run of the program. -/
def run (grammar : Grammar) (files : FileTree) (args : List String) :
    Except Breakdown Exit :=
  match Arguments.read args with
  | .error fault =>
    .ok { status := 2
          stderr := usage ++ "cleancode: error: " ++ fault.message ++ "\n" }
  | .ok .help => .ok { status := 0, stdout := help }
  | .ok (.check options) => check grammar files options

end RubySmells.CommandLine
