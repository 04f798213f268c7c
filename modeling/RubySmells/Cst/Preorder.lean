import RubySmells.Cst.Basic

/-!
# Walking a concrete syntax tree

The nodes of a tree in source order, a parent before what is below it:
`Cst.preorder` by recursion, `Cst.visit` with an explicit stack. The first
fault of a tree is looked for in that order.
-/

namespace RubySmells.Cst

mutual

/-- The nodes of a tree, parents first, children from left to right. -/
def preorder : Cst → List Cst
  | .mk i cs => .mk i cs :: preorderAll cs

/-- The nodes of several trees, one tree after the other. -/
def preorderAll : List Cst → List Cst
  | [] => []
  | c :: cs => c.preorder ++ preorderAll cs

end

theorem preorderAll_eq (cs : List Cst) : preorderAll cs = cs.flatMap preorder := by
  induction cs with
  | nil => rfl
  | cons c cs ih => rw [preorderAll, List.flatMap_cons, ih]

/-- A node comes before what is below its children. -/
theorem preorder_eq (c : Cst) : c.preorder = c :: c.children.flatMap preorder := by
  obtain ⟨i, cs⟩ := c
  rw [preorder, preorderAll_eq, children]

/-- The nodes at and below a stack: the top is taken off, and its children
take its place. -/
def visit : List Cst → List Cst
  | [] => []
  | c :: stack => c :: visit (c.children ++ stack)
  termination_by stack => sizeAll stack
  decreasing_by
    simp only [sizeAll_append, sizeAll_cons, size_eq c]
    omega

/-- Whether a node marks a place that the grammar could not make sense of. -/
def isFault (c : Cst) : Bool :=
  c.type = "ERROR" || c.info.missing

/-- The first fault of a tree, or its root if none is marked. -/
def firstFault (root : Cst) : Cst :=
  ((visit [root]).find? isFault).getD root

end RubySmells.Cst
