import RubySmells.Text.Digit
import RubySmells.Text.Quoted

/-!
# Command line arguments

What is asked for on the command line. There are three flags; all other
arguments are paths.

* A long flag may be cut short as long as only one flag starts that way.
* Short flags may share one dash.
* No flag takes a value; one that is given (`--verbose=yes`, `-vx`) is an
  error.
* After `--` everything is a path; so is a lone dash, a negative number, and
  what starts with a dash, is no flag and has a space in it.
* The paths must stand together: a second group of them, and flags that do not
  exist, are reported when all arguments have been looked at.
-/

namespace RubySmells

/-- A flag of the command line. -/
inductive Flag
  | help
  | flat
  | verbose
  deriving DecidableEq, Repr

namespace Flag

/-- The spellings of the flags, in the order in which candidates are listed. -/
def spellings : List (String × Flag) :=
  [("-h", .help), ("--help", .help), ("--unscoped", .flat), ("--verbose", .verbose),
    ("-v", .verbose)]

/-- The flag with exactly this spelling. -/
def ofSpelling? (spelling : String) : Option Flag :=
  spellings.lookup spelling

/-- How messages name a flag. -/
def names : Flag → String
  | .help => "-h/--help"
  | .flat => "--unscoped"
  | .verbose => "--verbose/-v"

end Flag

/-- What is asked for. -/
structure Options where
  paths : List String
  /-- Whether there is one frame for the whole file. -/
  flat : Bool := false
  verbose : Bool := false
  deriving DecidableEq, Repr

/-- What is wrong with the arguments. -/
inductive UsageFault
  /-- Several flags start that way. -/
  | ambiguous (argument : String) (candidates : List String)
  /-- A flag was given a value. -/
  | unexpectedValue (flag : Flag) (value : List Char)
  /-- Arguments that nothing is known to do with. -/
  | unrecognized (arguments : List String)
  deriving DecidableEq, Repr

/-- A fault of usage in words. -/
def UsageFault.message : UsageFault → String
  | .ambiguous argument candidates =>
    "ambiguous option: " ++ argument ++ " could match " ++ ", ".intercalate candidates
  | .unexpectedValue flag value =>
    "argument " ++ flag.names ++ ": ignored explicit argument " ++
      String.ofList (Text.Quoted.encode value)
  | .unrecognized arguments =>
    "unrecognized arguments: " ++ " ".intercalate arguments

/-- What the arguments come to. -/
inductive Request
  | help
  | check (options : Options)
  deriving DecidableEq, Repr

namespace Arguments

/-! ## Single arguments -/

/-- An argument by itself. -/
inductive Word
  /-- A path, or the mark after which there are only paths. -/
  | operand (text : String)
  /-- A flag, whether it was spelled with one dash, and the value given. -/
  | flag (flag : Flag) (short : Bool) (value : Option (List Char))
  /-- A flag that does not exist. -/
  | unknown (text : String)
  deriving DecidableEq, Repr

/-- Whether a flag was spelled with one dash. -/
def isShort (spelling : List Char) : Bool :=
  spelling.take 2 ≠ ['-', '-']

/-- The part before the first equals sign, and the part after it if there is
one. -/
def splitValue (arg : List Char) : List Char × Option (List Char) :=
  let name := arg.takeWhile (· ≠ '=')
  match arg.drop name.length with
  | [] => (name, none)
  | _ :: value => (name, some value)

/-- A flag that an argument may be a cut or grouped spelling of. -/
structure Candidate where
  spelling : String
  flag : Flag
  value : Option (List Char)

/-- The flags that an argument of more than one character may be meant for.
With two dashes it is the start of a spelling; with one, its first letter is a
flag and the rest is given to it. -/
def candidates (arg : List Char) : List Candidate :=
  if isShort arg then
    Flag.spellings.filterMap fun (spelling, flag) =>
      if spelling.toList = arg.take 2 then some ⟨spelling, flag, some (arg.drop 2)⟩
      else none
  else
    let (start, value) := splitValue arg
    Flag.spellings.filterMap fun (spelling, flag) =>
      if start.isPrefixOf spelling.toList then some ⟨spelling, flag, value⟩ else none

/-- Whether the text after a dash is that of a number: digits, or digits after
a point. A line feed at the very end does not matter. -/
def isNumber (text : List Char) : Bool :=
  let text := if text.getLast? = some '\n' then text.dropLast else text
  let whole := text.takeWhile Text.isDigit
  match text.drop whole.length with
  | [] => !whole.isEmpty
  | '.' :: fraction => !fraction.isEmpty && fraction.all Text.isDigit
  | _ => false

/-- Reads an argument that starts with a dash and is no exact spelling. -/
def classifyDashed (text : String) : Except UsageFault Word :=
  let arg := text.toList
  match candidates arg with
  | [c] => .ok (.flag c.flag (isShort c.spelling.toList) c.value)
  | [] =>
    if isNumber (arg.drop 1) || arg.contains ' ' then .ok (.operand text)
    else .ok (.unknown text)
  | cs => .error (.ambiguous text (cs.map Candidate.spelling))

/-- Reads one argument. -/
def classify (text : String) : Except UsageFault Word :=
  let arg := text.toList
  if arg.head? ≠ some '-' then .ok (.operand text)
  else
    match Flag.ofSpelling? text with
    | some flag => .ok (.flag flag (isShort arg) none)
    | none =>
      if arg.length = 1 then .ok (.operand text)
      else
        match splitValue arg with
        | (name, some value) =>
          match Flag.ofSpelling? (String.ofList name) with
          | some flag => .ok (.flag flag (isShort name) (some value))
          | none => classifyDashed text
        | (_, none) => classifyDashed text

/-- Reads all arguments. -/
def classifyAll : List String → Except UsageFault (List Word)
  | [] => .ok []
  | arg :: args => do
    if arg = "--" then return (arg :: args).map .operand
    let word ← classify arg
    let words ← classifyAll args
    return word :: words

/-! ## Flags that share a dash -/

/-- The flags in what follows a short flag. -/
def grouped (flag : Flag) : List Char → Except UsageFault (List Flag)
  | [] => .ok [flag]
  | c :: cs =>
    match Flag.ofSpelling? (String.ofList ['-', c]) with
    | some next => do
      let flags ← grouped next cs
      return flag :: flags
    | none => .error (.unexpectedValue flag (c :: cs))

/-- The flags that an argument sets, or the error that it has a value. -/
def flagsOf (flag : Flag) (short : Bool) : Option (List Char) → Except UsageFault (List Flag)
  | none => .ok [flag]
  | some [] => .error (.unexpectedValue flag [])
  | some (c :: cs) =>
    if short then grouped flag (c :: cs) else .error (.unexpectedValue flag (c :: cs))

/-! ## All arguments together -/

/-- Where the group of paths stands. -/
inductive Group
  | ahead
  | current (paths : List String)
  | past (paths : List String)

/-- The paths of the group. The first mark among them has done its work. -/
def Group.paths : Group → List String
  | .ahead => []
  | .current paths => paths.erase "--"
  | .past paths => paths.erase "--"

/-- A flag ends the group of paths. -/
def Group.close : Group → Group
  | .current paths => .past paths
  | g => g

/-- What the arguments looked at so far come to. -/
structure Progress where
  group : Group := .ahead
  unrecognized : List String := []
  flat : Bool := false
  verbose : Bool := false

/-- Adds an operand. -/
def Progress.operand (p : Progress) (text : String) : Progress :=
  match p.group with
  | .ahead => { p with group := .current [text] }
  | .current paths => { p with group := .current (paths ++ [text]) }
  | .past _ => { p with unrecognized := p.unrecognized ++ [text] }

/-- Sets flags in order; `none` once help is asked for. -/
def Progress.set (p : Progress) : List Flag → Option Progress
  | [] => some p
  | .help :: _ => none
  | .flat :: flags => { p with flat := true }.set flags
  | .verbose :: flags => { p with verbose := true }.set flags

/-- What is checked when no path is given. -/
def defaultPaths : List String := ["."]

/-- What the arguments come to at their end. -/
def Progress.finish (p : Progress) : Except UsageFault Request :=
  if p.unrecognized.isEmpty then
    let paths := p.group.paths
    .ok (.check ⟨if paths.isEmpty then defaultPaths else paths, p.flat, p.verbose⟩)
  else .error (.unrecognized p.unrecognized)

/-- Goes through the arguments. Help is given at once. -/
def collect (p : Progress) : List Word → Except UsageFault Request
  | [] => p.finish
  | .operand text :: words => collect (p.operand text) words
  | .unknown text :: words =>
    collect
      { p with group := p.group.close, unrecognized := p.unrecognized ++ [text] } words
  | .flag flag short value :: words => do
    let flags ← flagsOf flag short value
    match { p with group := p.group.close }.set flags with
    | none => return .help
    | some p => collect p words

/-- What the arguments ask for. -/
def read (args : List String) : Except UsageFault Request := do
  let words ← classifyAll args
  collect {} words

end Arguments

end RubySmells
