import RubySmells.Context
import RubySmells.Issue

/-!
# Rules

The four smells that are looked for. Each rule is tied to one kind of node
(`Rule.ofKind?`) and decides by the node and the context. A rule looks at the
context only once the node itself has given it reason to, so a context
without frames disturbs only the rules that get that far.
-/

namespace RubySmells

/-- A smell that is looked for. -/
inductive Rule
  /-- A parameter list that is too long. -/
  | tooManyArguments
  /-- A parameter that decides a branch all by itself. -/
  | booleanArgument
  /-- A method that is too large. -/
  | complexity
  /-- A call that reaches through other objects. -/
  | lawOfDemeter
  deriving DecidableEq, Repr

namespace Rule

/-- Every rule. -/
def all : List Rule :=
  [.tooManyArguments, .booleanArgument, .complexity, .lawOfDemeter]

/-- The name under which a rule reports. -/
def label : Rule → String
  | .tooManyArguments => "too_many_arguments"
  | .booleanArgument => "boolean_argument"
  | .complexity => "complexity"
  | .lawOfDemeter => "law_of_demeter"

/-- The rule that reports under a name. -/
def ofLabel? (label : String) : Option Rule :=
  all.find? (·.label == label)

/-- The rule for nodes of a kind. -/
def ofKind? : Kind → Option Rule
  | .parameterList => some .tooManyArguments
  | .conditional => some .booleanArgument
  | .methodDefinition => some .complexity
  | .call => some .lawOfDemeter
  | _ => none

/-! ## Limits -/

/-- How many parameters a list may have. -/
def maxArguments : Nat := 3

/-- How many nodes a method may have. -/
def maxMass : Nat := 40

/-- How many calls in a row make a chain. -/
def chainDepth : Nat := 3

/-- Whether a node starts a row of calls of a given length, each the receiver
of the one before. -/
def startsChain : (depth : Nat) → Node → Bool
  | 0, _ => true
  | 1, n => n.isCall
  | depth + 2, n => n.isCall && n.receiver?.any (startsChain (depth + 1))

/-! ## What is reported -/

/-- The finding of a rule at a node, in the class and method of a frame. -/
def issue (rule : Rule) (node : Node) (frame : Frame) : Issue :=
  let inClass := Issue.shown frame.className
  let inMethod := Issue.shown frame.methodName
  let (message, hint) := match rule with
    | .tooManyArguments =>
      ("Warning, too many arguments found in class " ++ inClass ++ " for " ++ inMethod,
        "Maximum " ++ toString maxArguments ++ " arguments per method recommended.")
    | .booleanArgument =>
      ("Warning, an argument is used as a boolean " ++ inClass ++ " for " ++ inMethod,
        "Split this method in 2 cases. One for the true, one for the false.")
    | .complexity =>
      ("Warning, the method " ++ inMethod ++ " in " ++ inClass ++
          " is too complex (mass: " ++ toString node.mass ++ ")",
        "Split this method with the extract method refactoring pattern.")
    | .lawOfDemeter =>
      ("Warning, the call in " ++ inMethod ++ " in " ++ inClass ++
          " violate the law of demeter",
        "Use the principle of 'Ask, don't tell.'")
  .located node rule.label frame.className frame.methodName message hint

/-- Whether a node alone gives a rule reason to look at the context. -/
def concerns (rule : Rule) (node : Node) : Bool :=
  match rule with
  | .tooManyArguments => maxArguments < node.texts.length
  | .booleanArgument => node.test?.any (·.kind = .localVariable)
  | .complexity => maxMass < node.mass
  | .lawOfDemeter => startsChain chainDepth node

/-- Whether the name a conditional tests is that of a live parameter. -/
def testsLive (node : Node) (frame : Frame) : Bool :=
  (node.test?.bind Node.name).any fun name => decide (name ∈ frame.live)

/-- Whether a rule reports at a node that concerns it. A chain of calls is
reported unless one was reported in the same method just before. -/
def fires (rule : Rule) (node : Node) (ctx : Context) (frame : Frame) : Bool :=
  match rule with
  | .tooManyArguments => true
  | .booleanArgument => testsLive node frame
  | .complexity => true
  | .lawOfDemeter => frame.methodName ≠ ctx.lastDemeterMethod

/-- What a rule keeps in mind when it reports. -/
def record (rule : Rule) (frame : Frame) : Action Unit :=
  match rule with
  | .lawOfDemeter => Context.remember frame.methodName
  | _ => Action.done ()

/-- Reports at a node that concerns the rule, if there is reason to in the
context. -/
def decideIn (rule : Rule) (node : Node) : Action (Option Issue) := do
  let frame ← Context.current
  let ctx ← Action.read
  if rule.fires node ctx frame then do
    rule.record frame
    Action.done (some (rule.issue node frame))
  else Action.done none

/-- Runs a rule on a node. -/
def check (rule : Rule) (node : Node) : Action (Option Issue) :=
  if rule.concerns node then rule.decideIn node else Action.done none

end Rule

end RubySmells
