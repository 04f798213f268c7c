import RubySmells.Conversion.Depth
import RubySmells.Failure
import RubySmells.Text.Excerpt

/-!
# Source files

From the bytes of a source file to its simplified tree. The grammar is a
parameter: anything that makes a concrete syntax tree of bytes and says
whether it found a fault.

`Source.parseWithin` keeps to a limit on how deep lists of targets are nested,
and `Source.parse` says what comes of a file when there is none.
-/

namespace RubySmells

/-- What a grammar makes of a source file. -/
structure Parsed where
  root : Cst
  /-- Whether the grammar could not make sense of all of it. -/
  hasError : Bool := false
  deriving Inhabited

/-- A grammar. -/
abbrev Grammar := List UInt8 → Parsed

/-- The place to report, if the grammar found a fault: the first node marked
as one, or the root. Marks alone do not make a fault. -/
def Parsed.fault? (p : Parsed) : Option Cst :=
  if p.hasError then some p.root.firstFault else none

namespace Source

/-- What is reported of a node at fault. -/
def malformed (source : List UInt8) (c : Cst) : Cause :=
  .malformed c.line (c.info.column + 1)
    ((Text.excerpt? (c.chars source)).map String.ofList)

/-- The simplified tree of a source file. -/
def parse (grammar : Grammar) (path : String) (source : List UInt8) :
    Except Failure Node :=
  let parsed := grammar source
  match parsed.fault? with
  | some c => .error ⟨path, malformed source c⟩
  | none =>
    match parsed.root.build source with
    | .ok (tree, _) => .ok tree
    | .error fault => .error ⟨path, .general fault.message⟩

/-- Why a source file has no simplified tree. -/
inductive Refusal
  | failure (f : Failure)
  /-- Lists of targets are nested deeper than there is room for. -/
  | tooDeep
  deriving DecidableEq, Repr

/-- The simplified tree of a source file, with room for a number of lists of
targets inside each other. -/
def parseWithin (limit : Nat) (grammar : Grammar) (path : String) (source : List UInt8) :
    Except Refusal Node :=
  let parsed := grammar source
  match parsed.fault? with
  | some c => .error (.failure ⟨path, malformed source c⟩)
  | none =>
    match parsed.root.buildWithin source limit with
    | .ok (tree, _) => .ok tree
    | .error .tooDeep => .error .tooDeep
    | .error (.scope fault) => .error (.failure ⟨path, .general fault.message⟩)

end Source

end RubySmells
