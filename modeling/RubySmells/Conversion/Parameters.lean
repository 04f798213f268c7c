import RubySmells.Conversion.Role
import RubySmells.Cst.Preorder
import RubySmells.Tree.Node

/-!
# Headers and parameter lists

What a node of the simplified tree takes over from the grammar node it stands
for, and what a parameter list contributes: the names it shows, in order, and
the locals it declares.
-/

namespace RubySmells.Cst

/-- The role of a node. -/
def role (c : Cst) : Role := Role.ofType c.type

/-- The header of a node that stands for a grammar node. -/
def header (c : Cst) (kind : Kind) (name : Option String) : Header :=
  ⟨kind, name, c.type, c.line⟩

/-- The text of the node in a field, empty if there is none. -/
def fieldText (source : List UInt8) (c : Cst) (field : String) : String :=
  match c.child? field with
  | some d => d.text source
  | none => ""

/-! ## Parameters -/

/-- The parameters of a list: its named children but for comments and the
locals declared beside the parameters. -/
def parameters (c : Cst) : List Cst :=
  c.children.filter fun d => d.named && !d.fills "locals" && d.role ≠ .comment

/-- The name a parameter is shown under: a bare word itself, else the word in
the field `name`, else (a splat, a pattern) the whole text. -/
def parameterName (source : List UInt8) (c : Cst) : String :=
  if c.role = .identifier then c.text source
  else
    match c.child? "name" with
    | some d => d.text source
    | none => c.text source

/-- The locals a parameter declares: a pattern declares every bare word in it,
any other parameter its name. -/
def parameterLocals (source : List UInt8) (c : Cst) : List String :=
  if c.type = "destructured_parameter" then
    (c.preorder.filter (·.role = .identifier)).map (text source)
  else [c.parameterName source]

/-- The names a parameter list shows. -/
def parameterNames (source : List UInt8) (c : Cst) : List String :=
  c.parameters.map (parameterName source)

/-- The locals a parameter list declares. -/
def declaredLocals (source : List UInt8) (c : Cst) : List String :=
  c.parameters.flatMap (parameterLocals source) ++
    (c.childrenAt "locals").map (text source)

/-- The simplified form of a parameter list. -/
def parameterListNode (source : List UInt8) (c : Cst) : Node :=
  .mk (c.header .parameterList none) ((c.parameterNames source).map .text)

/-- The parameter list of a method written without one. -/
def emptyParameterList (method : Cst) : Node :=
  .mk ⟨.parameterList, none, "method_parameters", method.line⟩ []

end RubySmells.Cst
