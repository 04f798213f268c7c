import RubySmells.Rule

/-!
# Scripts

Single operations on a context, strung together in any order, balanced or
not. A script shows what a context does in states that a walk never brings
about. Each operation gives a result, and a fault does not end the script.
-/

namespace RubySmells

/-- A single operation on a context. -/
inductive Operation
  | enter (node : Node)
  | leave (node : Node)
  | update (node : Node)
  /-- Ask whether a node has a frame of its own. -/
  | opensScope (node : Node)
  /-- Read the innermost frame. -/
  | current
  /-- Run the rule for the kind of the node. -/
  | check (node : Node)
  /-- Run a rule whatever the kind of the node. -/
  | apply (rule : Rule) (node : Node)
  /-- Set the method in which a chain was last reported. -/
  | remember (method : Option String)

/-- What an operation gives back. -/
inductive Value
  | nothing
  | flag (b : Bool)
  | frame (f : Frame)
  | issue (i : Option Issue)
  /-- There is no rule for nodes of that kind. -/
  | noRule

/-- The work of an operation. -/
def Operation.action : Operation → Action Value
  | .enter node => do
    Context.enter node
    return .nothing
  | .leave node => do
    Context.leave node
    return .nothing
  | .update node => do
    Context.update node
    return .nothing
  | .opensScope node => do
    let ctx ← Action.read
    return .flag (ctx.opensScope node)
  | .current => do
    let frame ← Context.current
    return .frame frame
  | .check node =>
    match Rule.ofKind? node.kind with
    | some rule => do
      let issue ← rule.check node
      return .issue issue
    | none => return .noRule
  | .apply rule node => do
    let issue ← rule.check node
    return .issue issue
  | .remember method => do
    Context.remember method
    return .nothing

/-- The result of a command, and the context after it. -/
inductive Result
  /-- A visit has gone into its node. -/
  | entered (ctx : Context)
  | value (v : Value) (ctx : Context)
  | fault (f : Fault) (ctx : Context)

/-- The result of an action. -/
def Result.of (run : Except Fault Value × Context) : Result :=
  match run with
  | (.ok v, ctx) => .value v ctx
  | (.error f, ctx) => .fault f ctx

/-- A step of a script. -/
inductive Command
  | single (op : Operation)
  /-- Work inside a node, which may be broken off at its end. -/
  | visit (node : Node) (work : List Command) (interruption : Option String)

namespace Command

/-- How the work inside a visit ends. -/
def outcome : Option String → Except Fault Value
  | none => .ok .nothing
  | some text => .error (.interrupted text)

mutual

/-- The results of a command, and the context after it. The results of the
work inside a visit stand before the visit's own. -/
def run : Command → Context → List Result × Context
  | .single op, ctx =>
    let after := op.action ctx
    ([.of after], after.2)
  | .visit node work interruption, ctx =>
    match Context.enter node ctx with
    | (.error f, ctx) => ([.fault f ctx], ctx)
    | (.ok (), inside) =>
      let (results, ctx) := runAll work inside
      let after := Context.leaveAfter node (outcome interruption) ctx
      (.entered inside :: results ++ [.of after], after.2)

/-- The results of a script, and the context after it. -/
def runAll : List Command → Context → List Result × Context
  | [], ctx => ([], ctx)
  | c :: cs, ctx =>
    let (first, ctx) := run c ctx
    let (rest, ctx) := runAll cs ctx
    (first ++ rest, ctx)

end

end Command

end RubySmells
