import RubySmells.Conversion.Machine

/-!
# Simplification by recursion

What each construct becomes, said by recursion on the concrete syntax tree.
A function takes the locals known before it and gives back those known after
it; a construct with locals of its own starts from none and leaves the locals
around it alone, and a block starts from those around it and leaves them
alone as well.

The functions walk over the children of a node directly: `eachIn` passes over
the fields that have been dealt with, `convertAt` looks for a field.
-/

namespace RubySmells.Cst

/-- Nodes made, and the locals known afterwards. -/
abbrev Made := List Node × NameSet

/-- The nodes as children. -/
def Made.children (m : Made) : List Child := m.1.map .node

/-- A node over what was made, in place of it. -/
def Made.wrap (m : Made) (h : Header) : Made :=
  ([.mk h m.children], m.2)

/-- What fills one place. -/
def Made.single (m : Made) (h : Header) : Child :=
  Child.single h m.children

/-- A declared target of an assignment without a value. -/
def assigned (source : List UInt8) (c : Cst) (locals : NameSet) : Made :=
  let name := c.text source
  ([.mk (c.header .localAssignment (some name)) [.text name]], locals.insertAll [name])

mutual

/-- What a grammar node becomes. -/
def convert (source : List UInt8) : Cst → NameSet → Made
  | .mk i cs, locals =>
    let c : Cst := .mk i cs
    match c.role with
    | .comment => ([], locals)
    | .wrapper => eachIn source [] cs locals
    | .parameterList =>
      ([c.parameterListNode source], locals.insertAll (c.declaredLocals source))
    | .identifier =>
      ([c.resolved source (decide (c.text source ∈ locals))], locals)
    | .classDefinition =>
      let body := eachIn source ["name"] cs ∅
      ([.mk (c.header .classDefinition (some (c.fieldText source "name")))
        (Made.children body)], locals)
    | .moduleDefinition =>
      let body := eachIn source ["name"] cs ∅
      ([.mk (c.header .moduleDefinition (some (c.fieldText source "name")))
        (Made.children body)], locals)
    | .methodDefinition =>
      let owner := convertAt source "object" cs locals
      let parameters := match c.child? "parameters" with
        | some d => (d.parameterListNode source, NameSet.ofList (d.declaredLocals source))
        | none => (c.emptyParameterList, ∅)
      let body := eachIn source ["object", "name", "parameters"] cs parameters.2
      ([.mk (c.header .methodDefinition (some (c.fieldText source "name")))
        (Made.children owner ++ .node parameters.1 :: Made.children body)], owner.2)
    | .block =>
      let parameters := match c.child? "parameters" with
        | some d =>
          ([Child.node (d.parameterListNode source)],
            locals.insertAll (d.declaredLocals source))
        | none => ([], locals)
      let body := eachIn source ["parameters"] cs parameters.2
      ([.mk (c.header .block none) (parameters.1 ++ Made.children body)], locals)
    | .conditional =>
      let test := slotIn source "condition" cs locals
      let rest := eachIn source ["condition"] cs test.2
      ([.mk (c.header .conditional none) (test.1 :: Made.children rest)], rest.2)
    | .call =>
      let name := c.calledName source
      let receiver := slotIn source "receiver" cs locals
      let rest := eachIn source ["receiver", "method"] cs receiver.2
      ([.mk (c.header .call (some name)) (receiver.1 :: .text name :: Made.children rest)],
        rest.2)
    | .assignment =>
      match c.child? "left" with
      | none => Made.wrap (eachIn source [] cs locals) (c.header .other none)
      | some left =>
        if left.role = .identifier then
          let name := left.text source
          let values := eachIn source ["left"] cs (locals.insertAll [name])
          ([.mk ⟨.localAssignment, some name, c.type, left.line⟩
            (.text name :: Made.children values)], values.2)
        else if left.type = "left_assignment_list" then
          let targets := targetsAt source "left" cs locals
          let values := eachIn source ["left"] cs targets.2
          Made.wrap (targets.1 ++ values.1, values.2) (c.header .other none)
        else Made.wrap (eachIn source [] cs locals) (c.header .other none)
    | .loop =>
      let target := loopTargetAt source cs locals
      let rest := eachIn source ["pattern"] cs target.2
      Made.wrap (target.1 ++ rest.1, rest.2) (c.header .other none)
    | .exceptionVariable =>
      Made.wrap (targetsIn source cs locals) (c.header .other none)
    | .group =>
      match eachIn source [] cs locals with
      | ([n], locals) => ([n], locals)
      | made => Made.wrap made (c.header .other none)
    | .gate =>
      if c.namedChildren.isEmpty then
        ([.mk (c.header .literal none) [.text (c.text source)]], locals)
      else
        let body := eachIn source [] cs ∅
        ([.mk (c.header .other none) (Made.children body)], locals)
    | .plain =>
      if c.namedChildren.isEmpty then
        ([.mk (c.header .literal none) [.text (c.text source)]], locals)
      else Made.wrap (eachIn source [] cs locals) (c.header .other none)

/-- What the named nodes among siblings become, one after the other, passing
over the first node that fills each of the fields. -/
def eachIn (source : List UInt8) (fields : List String) : List Cst → NameSet → Made
  | [], locals => ([], locals)
  | c :: cs, locals =>
    match fields.find? (fun f => c.fills f) with
    | some f => eachIn source (fields.erase f) cs locals
    | none =>
      if c.named then
        let first := convert source c locals
        let rest := eachIn source fields cs first.2
        (first.1 ++ rest.1, rest.2)
      else eachIn source fields cs locals

/-- What the first node that fills a field becomes. -/
def convertAt (source : List UInt8) (field : String) : List Cst → NameSet → Made
  | [], locals => ([], locals)
  | c :: cs, locals =>
    if c.fills field then convert source c locals else convertAt source field cs locals

/-- What the first node that fills a field becomes, as one child. -/
def slotIn (source : List UInt8) (field : String) :
    List Cst → NameSet → Child × NameSet
  | [], locals => (.absent, locals)
  | c :: cs, locals =>
    if c.fills field then
      let made := convert source c locals
      (Made.single made (c.header .other none), made.2)
    else slotIn source field cs locals

/-- The targets inside the first node that fills a field. -/
def targetsAt (source : List UInt8) (field : String) : List Cst → NameSet → Made
  | [], locals => ([], locals)
  | c :: cs, locals =>
    if c.fills field then targetsBelow source c locals
    else targetsAt source field cs locals

/-- The target of a loop. -/
def loopTargetAt (source : List UInt8) : List Cst → NameSet → Made
  | [], locals => ([], locals)
  | c :: cs, locals =>
    if c.fills "pattern" then
      if c.role = .identifier then assigned source c locals
      else targetsBelow source c locals
    else loopTargetAt source cs locals

/-- The targets inside a node. -/
def targetsBelow (source : List UInt8) : Cst → NameSet → Made
  | .mk _ cs, locals => targetsIn source cs locals

/-- The targets among siblings. -/
def targetsIn (source : List UInt8) : List Cst → NameSet → Made
  | [], locals => ([], locals)
  | c :: cs, locals =>
    let first : Made :=
      if !c.named then ([], locals)
      else if c.role = .identifier then assigned source c locals
      else if c.type = "rest_assignment" ∨ c.type = "destructured_left_assignment" ∨
          c.type = "left_assignment_list" then targetsBelow source c locals
      else convert source c locals
    let rest := targetsIn source cs first.2
    (first.1 ++ rest.1, rest.2)

end

/-- The simplified tree of a whole source file. -/
def simplify (source : List UInt8) (root : Cst) : Node :=
  .mk (root.header .program none) (Made.children (eachIn source [] root.children ∅))

end RubySmells.Cst
