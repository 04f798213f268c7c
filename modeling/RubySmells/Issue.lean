import RubySmells.Tree.Node

/-!
# Issues

What a rule reports: where, in which class and method, and two lines of text,
the warning and a hint.
-/

namespace RubySmells

/-- One finding. -/
structure Issue where
  rule : String
  className : Option String
  methodName : Option String
  message : String
  hint : String
  line : Int := 0
  deriving DecidableEq, Repr

namespace Issue

/-- A class or method name in a message; nothing where there is none. -/
def shown (name : Option String) : String := name.getD ""

/-- A finding at a node. -/
def located (node : Node) (rule : String) (className methodName : Option String)
    (message hint : String) : Issue :=
  ⟨rule, className, methodName, message, hint, node.line⟩

/-- The two lines that are printed for a finding in a file. -/
def lines (path : String) (issue : Issue) : List String :=
  [path ++ ": " ++ issue.message, path ++ ": " ++ issue.hint]

/-- What is printed for a finding in a file. -/
def print (path : String) (issue : Issue) : String :=
  String.join ((issue.lines path).map (· ++ "\n"))

end Issue

end RubySmells
