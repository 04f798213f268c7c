import RubySmells.Tree.Kind

/-!
# The simplified tree

What the rules look at. A node has a header and a list of children in source
order; a child is a node, a piece of text (a parameter name, the name of a
called method, the text of a literal), or a place left empty (a call without
receiver, a conditional without test).
-/

namespace RubySmells

/-- What a node says about itself. -/
structure Header where
  kind : Kind
  /-- The name of the thing defined, called, assigned or read. -/
  name : Option String := none
  /-- The grammar's word for the construct. -/
  nodeType : String := ""
  /-- The line it starts on, counted from one. -/
  line : Int := 0
  deriving DecidableEq, Repr, Inhabited

mutual

/-- A node of the simplified tree. -/
inductive Node
  | mk (header : Header) (children : List Child)

/-- What stands below a node. -/
inductive Child
  | node (n : Node)
  | text (s : String)
  | absent

end

deriving instance Repr for Node

deriving instance BEq for Node

instance : Inhabited Node := ⟨.mk default []⟩

instance : Inhabited Child := ⟨.absent⟩

namespace Child

/-- The node, if the child is one. -/
def node? : Child → Option Node
  | .node n => some n
  | _ => none

/-- The text, if the child is one. -/
def text? : Child → Option String
  | .text s => some s
  | _ => none

end Child

namespace Node

def header : Node → Header
  | .mk h _ => h

def children : Node → List Child
  | .mk _ cs => cs

def kind (n : Node) : Kind := n.header.kind

def name (n : Node) : Option String := n.header.name

def nodeType (n : Node) : String := n.header.nodeType

def line (n : Node) : Int := n.header.line

/-- The children that are nodes. -/
def nodes (n : Node) : List Node :=
  n.children.filterMap Child.node?

/-- The children that are text; for a parameter list, its parameters. -/
def texts (n : Node) : List String :=
  n.children.filterMap Child.text?

/-- The first child, if it is a node. -/
def firstNode? (n : Node) : Option Node :=
  n.children.head?.bind Child.node?

/-- The test of a conditional. -/
def test? (n : Node) : Option Node := n.firstNode?

/-- The receiver of a call. -/
def receiver? (n : Node) : Option Node := n.firstNode?

/-- Whether the node is a call. -/
def isCall (n : Node) : Bool := n.kind = .call

/-- The name, where there is one to show. -/
def shownName? (n : Node) : Option String :=
  n.name.filter (· ≠ "")

/-- What a trace calls the node: its name, else the grammar's word for it. -/
def label (n : Node) : String :=
  n.shownName?.getD n.nodeType

/-- A node on one line. -/
def render (n : Node) : String :=
  let name := match n.shownName? with
    | some name => " " ++ name
    | none => ""
  "<SyntaxNode " ++ n.kind.label ++ name ++ " line=" ++ toString n.line ++ ">"

end Node

/-! ## Size -/

mutual

/-- The number of nodes in a tree. -/
def Node.mass : Node → Nat
  | .mk _ cs => 1 + Child.massAll cs

/-- The number of nodes in and below a list of children; text and empty
places do not count. -/
def Child.massAll : List Child → Nat
  | [] => 0
  | .node n :: cs => n.mass + Child.massAll cs
  | .text _ :: cs => Child.massAll cs
  | .absent :: cs => Child.massAll cs

end

/-- The number of nodes in several trees. -/
def Node.totalMass : List Node → Nat
  | [] => 0
  | n :: ns => n.mass + Node.totalMass ns

@[simp] theorem Node.totalMass_nil : Node.totalMass [] = 0 := rfl

@[simp] theorem Node.totalMass_cons (n : Node) (ns : List Node) :
    Node.totalMass (n :: ns) = n.mass + Node.totalMass ns := rfl

theorem Node.totalMass_append (ns ms : List Node) :
    Node.totalMass (ns ++ ms) = Node.totalMass ns + Node.totalMass ms := by
  induction ns with
  | nil => simp
  | cons n ns ih => simp [ih, Nat.add_assoc]

/-- Only the nodes among the children count. -/
theorem Child.massAll_eq (cs : List Child) :
    Child.massAll cs = Node.totalMass (cs.filterMap Child.node?) := by
  induction cs with
  | nil => rfl
  | cons c cs ih =>
      cases c <;> simp [Child.massAll, Child.node?, List.filterMap_cons, ih]

/-- A node counts once, beside the nodes below it. -/
theorem Node.mass_eq (n : Node) : n.mass = 1 + Node.totalMass n.nodes := by
  cases n with
  | mk h cs => simp only [Node.mass, Child.massAll_eq, Node.nodes, Node.children]

/-- No tree is empty. -/
theorem Node.mass_pos (n : Node) : 0 < n.mass := by
  rw [Node.mass_eq]
  omega

end RubySmells
