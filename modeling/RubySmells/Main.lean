import RubySmells.CommandLine.Bundle
import RubySmells.CommandLine.Run

/-!
# The program

Reads a bundle from standard input and checks it as the arguments ask.
-/

open RubySmells

/-- The lines of a stream, without their ends. -/
partial def readLines (input : IO.FS.Stream) (lines : List String) : IO (List String) := do
  let line ← input.getLine
  if line.isEmpty then return lines.reverse
  let text := if line.endsWith "\n" then (line.dropEnd 1).toString else line
  readLines input (text :: lines)

/-- Checks the bundle on standard input. -/
def main (args : List String) : IO UInt32 := do
  let lines ← readLines (← IO.getStdin) []
  match Bundle.ofLines lines with
  | .error number =>
    IO.eprintln ("cleancode: bundle: line " ++ toString number ++ " is no record")
    return 2
  | .ok bundle =>
    match CommandLine.run bundle.grammar bundle.files args with
    | .error breakdown =>
      IO.eprintln ("cleancode: " ++ breakdown.message)
      return 1
    | .ok exit =>
      IO.print exit.stdout
      IO.eprint exit.stderr
      return exit.status.toUInt32
