import RubySmells.Rule

/-!
# Checking a tree

A walk goes over a tree in source order, a node before what is below it. At
each node the context is updated, then the rule for nodes of that kind runs;
after the nodes below, the context is left again. Findings are printed as they
are made, and a trace records every visit and every finding.

`Walk.loop` does this with a list of tasks, `Walk.recurse` by recursion on the
tree.
-/

namespace RubySmells

/-- A walk under way, or at its end. -/
structure Walk where
  context : Context
  /-- The findings, in the order in which they were made. -/
  issues : List Issue := []
  /-- What was printed. -/
  output : String := ""
  /-- A line for every visit and every finding. -/
  trace : List String := []

/-- A thing left to do. -/
inductive Task
  | visit (node : Node)
  | leave (node : Node)

namespace Walk

/-- A walk about to start. -/
def start (nested : Bool) : Walk := { context := .fresh nested }

/-- How a visit is traced. -/
def visitLine (node : Node) : String :=
  "VISIT " ++ node.kind.label ++ " " ++ node.label ++ " line=" ++ toString node.line

/-- How a finding is traced. -/
def issueLine (issue : Issue) : String :=
  "ISSUE " ++ issue.rule ++ " line=" ++ toString issue.line

/-- Adds a line to the trace. -/
def log (w : Walk) (line : String) : Walk :=
  { w with trace := w.trace ++ [line] }

/-- Records and prints a finding. -/
def report (w : Walk) (path : String) (issue : Issue) : Walk :=
  { w with
    issues := w.issues ++ [issue]
    output := w.output ++ issue.print path
    trace := w.trace ++ [issueLine issue] }

/-- Goes into a node and runs the rule for it. -/
def inspect (node : Node) : Action (Option Issue) := do
  Context.enter node
  match Rule.ofKind? node.kind with
  | some rule => rule.check node
  | none => return none

/-- Visits a node, not yet what is below it. -/
def visit (path : String) (node : Node) (w : Walk) : Except Fault Walk :=
  let w := w.log (visitLine node)
  match inspect node w.context with
  | (.ok (some issue), ctx) => .ok ({ w with context := ctx }.report path issue)
  | (.ok none, ctx) => .ok { w with context := ctx }
  | (.error fault, _) => .error fault

/-- Comes back from a node. -/
def leave (node : Node) (w : Walk) : Except Fault Walk :=
  match Context.leave node w.context with
  | (.ok (), ctx) => .ok { w with context := ctx }
  | (.error fault, _) => .error fault

/-! ## With a list of tasks -/

/-- How much a task counts when the work ahead is measured. -/
def workOf : Task → Nat
  | .visit node => 2 * node.mass
  | .leave _ => 1

/-- The work in a list of tasks. -/
def work : List Task → Nat
  | [] => 0
  | t :: tasks => workOf t + work tasks

theorem work_map_visit_append (ns : List Node) (rest : List Task) :
    work (ns.map .visit ++ rest) = 2 * Node.totalMass ns + work rest := by
  induction ns with
  | nil => simp
  | cons n ns ih =>
      simp only [List.map_cons, List.cons_append, work, workOf, ih, Node.totalMass_cons]
      omega

theorem work_visit (node : Node) (rest : List Task) :
    work (node.nodes.map .visit ++ .leave node :: rest) < work (.visit node :: rest) := by
  have hm := node.mass_eq
  rw [work_map_visit_append]
  simp only [work, workOf]
  omega

theorem work_leave (node : Node) (rest : List Task) :
    work rest < work (.leave node :: rest) := by
  simp only [work, workOf]
  omega

/-- Does the tasks in order. A visit puts the visits of the nodes below, and
the way back, in front of what is left. -/
def loop (path : String) : List Task → Walk → Except Fault Walk
  | [], w => .ok w
  | .visit node :: rest, w =>
    match visit path node w with
    | .ok w => loop path (node.nodes.map .visit ++ .leave node :: rest) w
    | .error fault => .error fault
  | .leave node :: rest, w =>
    match leave node w with
    | .ok w => loop path rest w
    | .error fault => .error fault
  termination_by tasks => work tasks
  decreasing_by
    · exact work_visit node rest
    · exact work_leave node rest

/-! ## By recursion -/

mutual

/-- Visits a node, then what is below it, and comes back. -/
def recurse (path : String) : Node → Walk → Except Fault Walk
  | .mk h cs, w => do
    let w ← visit path (.mk h cs) w
    let w ← recurseAll path cs w
    leave (.mk h cs) w

/-- Walks over the nodes among the children of a node. -/
def recurseAll (path : String) : List Child → Walk → Except Fault Walk
  | [], w => .ok w
  | .node n :: cs, w => do
    let w ← recurse path n w
    recurseAll path cs w
  | .text _ :: cs, w => recurseAll path cs w
  | .absent :: cs, w => recurseAll path cs w

end

/-- Checks the tree of a file. -/
def run (path : String) (nested : Bool) (tree : Node) : Except Fault Walk :=
  loop path [.visit tree] (start nested)

end Walk

end RubySmells
