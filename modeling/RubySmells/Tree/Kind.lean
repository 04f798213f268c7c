/-!
# Kinds of nodes

The constructs that the rules tell apart. Everything else is `other`.
-/

namespace RubySmells

/-- The construct a node of the simplified tree stands for. -/
inductive Kind
  | program
  | classDefinition
  | moduleDefinition
  | methodDefinition
  | parameterList
  | block
  | conditional
  | call
  | localAssignment
  | localVariable
  | literal
  | other
  deriving DecidableEq, Repr, Inhabited

namespace Kind

/-- Every kind, in order of declaration. -/
def all : List Kind :=
  [.program, .classDefinition, .moduleDefinition, .methodDefinition, .parameterList,
    .block, .conditional, .call, .localAssignment, .localVariable, .literal, .other]

/-- The name of a kind in traces and listings. -/
def label : Kind → String
  | .program => "PROGRAM"
  | .classDefinition => "CLASS_DEFINITION"
  | .moduleDefinition => "MODULE_DEFINITION"
  | .methodDefinition => "METHOD_DEFINITION"
  | .parameterList => "PARAMETER_LIST"
  | .block => "BLOCK"
  | .conditional => "CONDITIONAL"
  | .call => "CALL"
  | .localAssignment => "LOCAL_ASSIGNMENT"
  | .localVariable => "LOCAL_VARIABLE"
  | .literal => "LITERAL"
  | .other => "OTHER"

/-- The kind with a given name. -/
def ofLabel? (label : String) : Option Kind :=
  all.find? (·.label == label)

/-- Reading a kind's name gives the kind. -/
theorem ofLabel?_label (k : Kind) : ofLabel? k.label = some k := by
  cases k <;> decide

end Kind

end RubySmells
