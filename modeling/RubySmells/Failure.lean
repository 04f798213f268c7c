import RubySmells.Text.Quoted

/-!
# Failures

Why a file could not be checked. A failure names the file and carries its
cause; the wording of causes is here and nowhere else.
-/

namespace RubySmells

/-- Why a file could not be checked. -/
inductive Cause
  /-- A reason given in words. -/
  | general (text : String)
  /-- The file could not be read, for the reason given by the system. -/
  | access (text : String)
  /-- The grammar could not make sense of the source at a place, counted from
  one. -/
  | malformed (line column : Int) (detail : Option String)
  deriving DecidableEq, Repr

/-- A cause in words. The piece of source at fault is quoted, if there is one
to show. -/
def Cause.message : Cause → String
  | .general text => text
  | .access text => text
  | .malformed line column detail =>
    let place := "syntax error at line " ++ toString line ++ ", column " ++ toString column
    match detail.filter (· ≠ "") with
    | some shown => place ++ " near " ++ String.ofList (Text.Quoted.encode shown.toList)
    | none => place

/-- A file that could not be checked, and why. -/
structure Failure where
  path : String
  cause : Cause
  deriving DecidableEq, Repr

/-- A failure without the file. -/
def Failure.message (f : Failure) : String := f.cause.message

/-- A failure as it is reported. -/
def Failure.render (f : Failure) : String :=
  f.path ++ ": " ++ f.message

end RubySmells
