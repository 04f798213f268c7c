import RubySmells.Conversion.Parameters

/-!
# Plans

How each construct is simplified, as data. A `Plan` is a list of steps that
are taken in order (declare locals, open or close a scope, add a child, ask
for another grammar node to be simplified) and a word on what becomes of the
children collected on the way.

The grammar nodes that a plan asks for stand below the node the plan is for,
each of them once (`Cst.work_plan`), so following plans comes to an end.
-/

namespace RubySmells

/-- One step of a plan. -/
inductive Step
  /-- Make names known as locals of the innermost scope. -/
  | declare (names : List String)
  /-- Add a finished child. -/
  | emit (child : Child)
  /-- Add a bare word: a variable if it is a known local, else a call. -/
  | resolve (word : Cst)
  /-- Add whatever a grammar node becomes. -/
  | convert (node : Cst)
  /-- Add what a grammar node becomes as exactly one child. -/
  | slot (node : Cst)
  /-- Open a scope, which knows the locals around it or none. -/
  | openScope (inherits : Bool)
  /-- Drop the innermost scope. -/
  | closeScope

/-- What becomes of the children that a plan collected. -/
inductive Closing
  /-- They take the place of the node themselves. -/
  | splice
  /-- They go below one node. -/
  | wrap (header : Header)
  /-- A single one takes the place of the node; otherwise they go below one
  node. -/
  | group (header : Header)

/-- How a grammar node is simplified. -/
structure Plan where
  steps : List Step
  closing : Closing

/-- Puts the children of a finished plan together. -/
def Closing.apply : Closing → List Child → List Child
  | .splice, made => made
  | .wrap h, made => [.node (.mk h made)]
  | .group _, [c] => [c]
  | .group h, made => [.node (.mk h made)]

/-- Children that have to fill one place: none leaves it empty, and several
go below one node. -/
def Child.single (h : Header) : List Child → Child
  | [] => .absent
  | [c] => c
  | cs => .node (.mk h cs)

namespace Cst

/-! ## Parts of plans -/

/-- Simplify the nodes in order. -/
def each (nodes : List Cst) : List Step :=
  nodes.map .convert

/-- Fill one place from a field. -/
def slotAt (c : Cst) (field : String) : List Step :=
  match c.child? field with
  | some d => [.slot d]
  | none => [.emit .absent]

/-- Declare the locals of a parameter list and add it. -/
def addParameters (source : List UInt8) (c : Cst) : List Step :=
  [.declare (c.declaredLocals source), .emit (.node (c.parameterListNode source))]

/-- Declare a bare word and add an assignment to it without a value. -/
def assignTarget (source : List UInt8) (c : Cst) : List Step :=
  let name := c.text source
  [.declare [name],
    .emit (.node (.mk (c.header .localAssignment (some name)) [.text name]))]

mutual

/-- The targets of a multiple assignment: bare words are assigned to, nested
targets are taken apart by recursion, and anything else is simplified as it
stands. -/
def targets (source : List UInt8) : Cst → List Step
  | .mk _ cs => targetsAll source cs

/-- The targets among a list of siblings. -/
def targetsAll (source : List UInt8) : List Cst → List Step
  | [] => []
  | c :: cs =>
    let first :=
      if !c.named then []
      else if c.role = .identifier then assignTarget source c
      else if c.type = "rest_assignment" ∨ c.type = "destructured_left_assignment" ∨
          c.type = "left_assignment_list" then targets source c
      else [.convert c]
    first ++ targetsAll source cs

end

/-- The target of a loop: a bare word, or the targets inside. -/
def loopTarget (source : List UInt8) (c : Cst) : List Step :=
  match c.child? "pattern" with
  | none => []
  | some p => if p.role = .identifier then assignTarget source p else targets source p

/-! ## The plans -/

/-- A construct without a role: its text if nothing is below it, else a node
over its parts. -/
def plainPlan (source : List UInt8) (c : Cst) : Plan :=
  if c.namedChildren.isEmpty then
    ⟨[.emit (.text (c.text source))], .wrap (c.header .literal none)⟩
  else ⟨each c.namedChildren, .wrap (c.header .other none)⟩

/-- A definition: its parts but for the name, in a scope of their own. -/
def definitionPlan (source : List UInt8) (kind : Kind) (c : Cst) : Plan :=
  ⟨.openScope false :: each (c.others ["name"]) ++ [.closeScope],
    .wrap (c.header kind (some (c.fieldText source "name")))⟩

/-- A method: the owner in the scope around the method, then the parameters
and the body in a scope of their own. -/
def methodPlan (source : List UInt8) (c : Cst) : Plan :=
  let owner := match c.child? "object" with
    | some d => [.convert d]
    | none => []
  let parameters := match c.child? "parameters" with
    | some d => d.addParameters source
    | none => [.emit (.node c.emptyParameterList)]
  ⟨owner ++ .openScope false :: parameters ++
      each (c.others ["object", "name", "parameters"]) ++ [.closeScope],
    .wrap (c.header .methodDefinition (some (c.fieldText source "name")))⟩

/-- A block: its parameters, if any, and its body, in a scope that knows the
locals around it. -/
def blockPlan (source : List UInt8) (c : Cst) : Plan :=
  let parameters := match c.child? "parameters" with
    | some d => d.addParameters source
    | none => []
  ⟨.openScope true :: parameters ++ each (c.others ["parameters"]) ++ [.closeScope],
    .wrap (c.header .block none)⟩

/-- A conditional: the test in one place, then the branches. -/
def conditionalPlan (c : Cst) : Plan :=
  ⟨c.slotAt "condition" ++ each (c.others ["condition"]),
    .wrap (c.header .conditional none)⟩

/-- The name of the method that a call node calls. -/
def calledName (source : List UInt8) (c : Cst) : String :=
  match c.child? "method" with
  | some d => d.text source
  | none => "call"

/-- A call: the receiver in one place, the name, then the arguments. -/
def callPlan (source : List UInt8) (c : Cst) : Plan :=
  let name := c.calledName source
  ⟨c.slotAt "receiver" ++ .emit (.text name) :: each (c.others ["receiver", "method"]),
    .wrap (c.header .call (some name))⟩

/-- An assignment: to a bare word, to several targets, or to something that is
no local. A bare word is known from the assigned value on. -/
def assignmentPlan (source : List UInt8) (c : Cst) : Plan :=
  match c.child? "left" with
  | none => ⟨each c.namedChildren, .wrap (c.header .other none)⟩
  | some left =>
    if left.role = .identifier then
      let name := left.text source
      ⟨.declare [name] :: .emit (.text name) :: each (c.others ["left"]),
        .wrap ⟨.localAssignment, some name, c.type, left.line⟩⟩
    else if left.type = "left_assignment_list" then
      ⟨targets source left ++ each (c.others ["left"]), .wrap (c.header .other none)⟩
    else ⟨each c.namedChildren, .wrap (c.header .other none)⟩

/-- A loop: its target, then the collection and the body. -/
def loopPlan (source : List UInt8) (c : Cst) : Plan :=
  ⟨c.loopTarget source ++ each (c.others ["pattern"]), .wrap (c.header .other none)⟩

/-- A construct with locals of its own and no other role. -/
def gatePlan (source : List UInt8) (c : Cst) : Plan :=
  if c.namedChildren.isEmpty then c.plainPlan source
  else
    ⟨.openScope false :: each c.namedChildren ++ [.closeScope],
      .wrap (c.header .other none)⟩

/-- How a grammar node is simplified. -/
def plan (source : List UInt8) (c : Cst) : Plan :=
  match c.role with
  | .comment => ⟨[], .splice⟩
  | .wrapper => ⟨each c.namedChildren, .splice⟩
  | .parameterList => ⟨c.addParameters source, .splice⟩
  | .identifier => ⟨[.resolve c], .splice⟩
  | .classDefinition => c.definitionPlan source .classDefinition
  | .moduleDefinition => c.definitionPlan source .moduleDefinition
  | .methodDefinition => c.methodPlan source
  | .block => c.blockPlan source
  | .conditional => c.conditionalPlan
  | .call => c.callPlan source
  | .assignment => c.assignmentPlan source
  | .loop => c.loopPlan source
  | .exceptionVariable => ⟨targets source c, .wrap (c.header .other none)⟩
  | .group => ⟨each c.namedChildren, .group (c.header .other none)⟩
  | .gate => c.gatePlan source
  | .plain => c.plainPlan source

/-- The steps for the root of a tree: a scope of its own, and everything in
it. -/
def programSteps (root : Cst) : List Step :=
  .openScope false :: each root.namedChildren ++ [.closeScope]

end Cst

/-! ## Work -/

/-- How much a grammar node counts when the work ahead is measured; large
enough for the steps of its plan beside what the nodes below it count. -/
def Cst.work (c : Cst) : Nat := 8 * c.size

/-- The work in one step. -/
def Step.work : Step → Nat
  | .convert c => c.work
  | .slot c => c.work
  | _ => 1

/-- The work in a list of steps. -/
def Step.workAll : List Step → Nat
  | [] => 0
  | s :: steps => s.work + Step.workAll steps

namespace Step

@[simp] theorem workAll_nil : workAll [] = 0 := rfl

@[simp] theorem workAll_cons (s : Step) (steps : List Step) :
    workAll (s :: steps) = s.work + workAll steps := rfl

@[simp] theorem workAll_append (xs ys : List Step) :
    workAll (xs ++ ys) = workAll xs + workAll ys := by
  induction xs with
  | nil => simp
  | cons x xs ih => simp [ih, Nat.add_assoc]

end Step

namespace Cst

open Step

@[simp] theorem workAll_each (nodes : List Cst) :
    workAll (each nodes) = 8 * sizeAll nodes := by
  induction nodes with
  | nil => rfl
  | cons c cs ih =>
      show workAll (.convert c :: each cs) = _
      simp only [workAll_cons, ih, Step.work, work, sizeAll_cons]
      omega

@[simp] theorem workAll_addParameters (source : List UInt8) (c : Cst) :
    workAll (c.addParameters source) = 2 := rfl

@[simp] theorem workAll_assignTarget (source : List UInt8) (c : Cst) :
    workAll (c.assignTarget source) = 2 := rfl

mutual

theorem workAll_targets_le (source : List UInt8) :
    ∀ c : Cst, workAll (c.targets source) + 8 ≤ 8 * c.size
  | .mk i cs => by
      have h := workAll_targetsAll_le source cs
      simp only [targets, size]
      omega

theorem workAll_targetsAll_le (source : List UInt8) :
    ∀ cs : List Cst, workAll (targetsAll source cs) ≤ 8 * sizeAll cs
  | [] => by simp [targetsAll]
  | c :: cs => by
      have h1 := workAll_targetsAll_le source cs
      have h2 := workAll_targets_le source c
      have h3 := c.size_pos
      simp only [targetsAll, workAll_append, sizeAll_cons]
      split
      · simp only [workAll_nil]
        omega
      · split
        · simp only [workAll_assignTarget]
          omega
        · split
          · omega
          · simp only [workAll_cons, workAll_nil, Step.work, work]
            omega

end

theorem workAll_slotAt_add_le (c : Cst) (field : String) (fields : List String) :
    workAll (c.slotAt field) + 8 * sizeAll (c.others (field :: fields)) ≤
      1 + 8 * sizeAll c.children := by
  simp only [slotAt]
  split
  · rename_i d h
    have := size_child?_add_others_le fields h
    simp only [workAll_cons, workAll_nil, Step.work, work]
    omega
  · have := sizeAll_others_le c (field :: fields)
    simp only [workAll_cons, workAll_nil, Step.work]
    omega

theorem work_plainPlan (source : List UInt8) (c : Cst) :
    workAll (c.plainPlan source).steps ≤ 1 + 8 * sizeAll c.children := by
  have h := c.sizeAll_namedChildren_le
  simp only [plainPlan]
  split
  · simp only [workAll_cons, workAll_nil, Step.work]
    omega
  · simp only [workAll_each]
    omega

theorem work_methodPlan (source : List UInt8) (c : Cst) :
    workAll (c.methodPlan source).steps ≤ 5 + 8 * sizeAll c.children := by
  have hp : ∀ o : Option Cst, workAll (match o with
      | some d => d.addParameters source
      | none => [.emit (.node c.emptyParameterList)]) ≤ 2 := by
    intro o
    cases o <;> simp [Step.work]
  have hq := hp (c.child? "parameters")
  simp only [methodPlan]
  cases h : c.child? "object" with
  | none =>
      have := sizeAll_others_le c ["object", "name", "parameters"]
      simp only [workAll_append, workAll_cons, workAll_nil, workAll_each,
        Step.work] at hq ⊢
      omega
  | some d =>
      have := size_child?_add_others_le ["name", "parameters"] h
      simp only [workAll_append, workAll_cons, workAll_nil, workAll_each,
        Step.work, work] at hq ⊢
      omega

theorem work_blockPlan (source : List UInt8) (c : Cst) :
    workAll (c.blockPlan source).steps ≤ 5 + 8 * sizeAll c.children := by
  have h := sizeAll_others_le c ["parameters"]
  simp only [blockPlan]
  split <;>
    simp only [workAll_append, workAll_cons, workAll_nil, workAll_each, Step.work,
      workAll_addParameters] <;> omega

theorem work_assignmentPlan (source : List UInt8) (c : Cst) :
    workAll (c.assignmentPlan source).steps ≤ 5 + 8 * sizeAll c.children := by
  have h := c.sizeAll_namedChildren_le
  simp only [assignmentPlan]
  split
  · simp only [workAll_each]
    omega
  · rename_i left hl
    have h1 := size_child?_add_others_le [] hl
    have h2 := workAll_targets_le source left
    split
    · simp only [workAll_cons, workAll_each, Step.work]
      omega
    · split
      · simp only [workAll_append, workAll_each]
        omega
      · simp only [workAll_each]
        omega

theorem work_loopPlan (source : List UInt8) (c : Cst) :
    workAll (c.loopPlan source).steps ≤ 5 + 8 * sizeAll c.children := by
  simp only [loopPlan, loopTarget, workAll_append, workAll_each]
  split
  · have := sizeAll_others_le c ["pattern"]
    simp only [workAll_nil]
    omega
  · rename_i p hp
    have h1 := size_child?_add_others_le [] hp
    have h2 := workAll_targets_le source p
    split
    · simp only [workAll_assignTarget]
      omega
    · omega

/-- The steps of a plan, and its end, are less work than the node it is
for. -/
theorem work_plan (source : List UInt8) (c : Cst) :
    workAll (c.plan source).steps + 1 < c.work := by
  have hn := c.sizeAll_namedChildren_le
  have ho := c.sizeAll_others_le
  rw [work, size_eq]
  simp only [plan]
  split
  · simp only [workAll_nil]
    omega
  · simp only [workAll_each]
    omega
  · simp only [workAll_addParameters]
    omega
  · simp only [workAll_cons, workAll_nil, Step.work]
    omega
  · have := ho ["name"]
    simp only [definitionPlan, workAll_append, workAll_cons, workAll_nil, workAll_each,
      Step.work]
    omega
  · have := ho ["name"]
    simp only [definitionPlan, workAll_append, workAll_cons, workAll_nil, workAll_each,
      Step.work]
    omega
  · have := c.work_methodPlan source
    omega
  · have := c.work_blockPlan source
    omega
  · have := c.workAll_slotAt_add_le "condition" []
    simp only [conditionalPlan, workAll_append, workAll_each]
    omega
  · have := c.workAll_slotAt_add_le "receiver" ["method"]
    simp only [callPlan, workAll_append, workAll_cons, workAll_each, Step.work]
    omega
  · have := c.work_assignmentPlan source
    omega
  · have := c.work_loopPlan source
    omega
  · have := workAll_targets_le source c
    rw [size_eq] at this
    dsimp only
    omega
  · simp only [workAll_each]
    omega
  · have := c.work_plainPlan source
    simp only [gatePlan]
    split
    · omega
    · simp only [workAll_append, workAll_cons, workAll_nil, workAll_each, Step.work]
      omega
  · have := c.work_plainPlan source
    omega

end Cst

end RubySmells
