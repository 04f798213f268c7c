import RubySmells.Proofs.Derivation

/-!
# What each construct becomes

One equation for each role, over the children of a grammar node, so that no
further proof has to open `Cst.convert`. Methods, conditionals and calls have
theirs beside the relation `Derives`.

Constructs that stand for one node whatever is below them, but for what an empty
one looks like, share the leaf that they become then (`Cst.leaf`).
-/

namespace RubySmells.Cst

/-- A construct with nothing below it, by its text. -/
def leaf (source : List UInt8) (c : Cst) : Node :=
  .mk (c.header .literal none) [.text (c.text source)]

/-- The parameters that a block begins with, if it has any, and the locals that its
body starts from. -/
def blockParameters (source : List UInt8) (c : Cst) (locals : NameSet) : Made :=
  match c.child? "parameters" with
  | some d => ([d.parameterListNode source], locals.insertAll (d.declaredLocals source))
  | none => ([], locals)

variable (source : List UInt8) {c : Cst} (locals : NameSet)

theorem convert_comment (hr : c.role = .comment) : convert source c locals = ([], locals) := by
  obtain ⟨i, cs⟩ := c
  rw [convert, hr]

theorem convert_wrapper (hr : c.role = .wrapper) :
    convert source c locals = eachIn source [] c.children locals := by
  obtain ⟨i, cs⟩ := c
  rw [convert, hr]
  rfl

theorem convert_parameterList (hr : c.role = .parameterList) :
    convert source c locals =
      ([c.parameterListNode source], locals.insertAll (c.declaredLocals source)) := by
  obtain ⟨i, cs⟩ := c
  rw [convert, hr]

theorem convert_identifier (hr : c.role = .identifier) :
    convert source c locals =
      ([c.resolved source (decide (c.text source ∈ locals))], locals) := by
  obtain ⟨i, cs⟩ := c
  rw [convert, hr]

theorem convert_classDefinition (hr : c.role = .classDefinition) :
    convert source c locals =
      ([.mk (c.header .classDefinition (some (c.fieldText source "name")))
        ((eachIn source ["name"] c.children ∅).1.map .node)], locals) := by
  obtain ⟨i, cs⟩ := c
  rw [convert, hr]
  rfl

theorem convert_moduleDefinition (hr : c.role = .moduleDefinition) :
    convert source c locals =
      ([.mk (c.header .moduleDefinition (some (c.fieldText source "name")))
        ((eachIn source ["name"] c.children ∅).1.map .node)], locals) := by
  obtain ⟨i, cs⟩ := c
  rw [convert, hr]
  rfl

theorem convert_block (hr : c.role = .block) :
    convert source c locals =
      let parameters := c.blockParameters source locals
      ([.mk (c.header .block none) ((parameters.1 ++
        (eachIn source ["parameters"] c.children parameters.2).1).map .node)], locals) := by
  obtain ⟨i, cs⟩ := c
  rw [convert, hr, blockParameters]
  cases (Cst.mk i cs).child? "parameters" <;> rfl

/-- An assignment to nothing in particular is a node over all its parts. -/
theorem convert_assignment_of_none (hr : c.role = .assignment) (hleft : c.child? "left" = none) :
    convert source c locals =
      Made.wrap (eachIn source [] c.children locals) (c.header .other none) := by
  obtain ⟨i, cs⟩ := c
  rw [convert, hr]
  simp only [hleft]
  rfl

/-- So is an assignment to anything but bare words; a bare word is known from the
assigned value on, and several targets come before what is assigned to them. -/
theorem convert_assignment_of_some {left : Cst} (hr : c.role = .assignment)
    (hleft : c.child? "left" = some left) :
    convert source c locals =
      if left.role = .identifier then
        let values := eachIn source ["left"] c.children (locals.insertAll [left.text source])
        ([.mk ⟨.localAssignment, some (left.text source), c.type, left.line⟩
          (.text (left.text source) :: values.1.map .node)], values.2)
      else if left.type = "left_assignment_list" then
        let targets := targetsAt source "left" c.children locals
        let values := eachIn source ["left"] c.children targets.2
        Made.wrap (targets.1 ++ values.1, values.2) (c.header .other none)
      else Made.wrap (eachIn source [] c.children locals) (c.header .other none) := by
  obtain ⟨i, cs⟩ := c
  rw [convert, hr]
  simp only [hleft]
  rfl

theorem convert_loop (hr : c.role = .loop) :
    convert source c locals =
      let target := loopTargetAt source c.children locals
      let rest := eachIn source ["pattern"] c.children target.2
      Made.wrap (target.1 ++ rest.1, rest.2) (c.header .other none) := by
  obtain ⟨i, cs⟩ := c
  rw [convert, hr]
  rfl

theorem convert_exceptionVariable (hr : c.role = .exceptionVariable) :
    convert source c locals =
      Made.wrap (targetsIn source c.children locals) (c.header .other none) := by
  obtain ⟨i, cs⟩ := c
  rw [convert, hr]
  rfl

theorem convert_group (hr : c.role = .group) :
    convert source c locals =
      let parts := eachIn source [] c.children locals
      ([(c.gathered parts.1).getD (.mk (c.header .other none) [])], parts.2) := by
  obtain ⟨i, cs⟩ := c
  rw [convert, hr]
  simp only [children]
  rcases eachIn source [] cs locals with ⟨_ | ⟨n, _ | ⟨n', ns⟩⟩, after⟩ <;> rfl

theorem convert_gate (hr : c.role = .gate) :
    convert source c locals =
      (if c.namedChildren.isEmpty then [c.leaf source]
        else [.mk (c.header .other none) ((eachIn source [] c.children ∅).1.map .node)],
        locals) := by
  obtain ⟨i, cs⟩ := c
  rw [convert, hr]
  simp only
  split <;> rfl

theorem convert_plain (hr : c.role = .plain) :
    convert source c locals =
      if c.namedChildren.isEmpty then ([c.leaf source], locals)
      else Made.wrap (eachIn source [] c.children locals) (c.header .other none) := by
  obtain ⟨i, cs⟩ := c
  rw [convert, hr]
  rfl

/-- Everything but comments and wrappers becomes one node. -/
theorem exists_convert_singleton (hcomment : c.role ≠ .comment) (hwrapper : c.role ≠ .wrapper) :
    ∃ n, (convert source c locals).1 = [n] := by
  cases hr : c.role with
  | comment => exact absurd hr hcomment
  | wrapper => exact absurd hr hwrapper
  | parameterList => exact ⟨_, congrArg Prod.fst (convert_parameterList source locals hr)⟩
  | identifier => exact ⟨_, congrArg Prod.fst (convert_identifier source locals hr)⟩
  | classDefinition => exact ⟨_, congrArg Prod.fst (convert_classDefinition source locals hr)⟩
  | moduleDefinition => exact ⟨_, congrArg Prod.fst (convert_moduleDefinition source locals hr)⟩
  | methodDefinition => exact ⟨_, congrArg Prod.fst (convert_method source hr locals)⟩
  | block => exact ⟨_, congrArg Prod.fst (convert_block source locals hr)⟩
  | conditional => exact ⟨_, congrArg Prod.fst (convert_conditional source hr locals)⟩
  | call => exact ⟨_, congrArg Prod.fst (convert_call source hr locals)⟩
  | loop => exact ⟨_, congrArg Prod.fst (convert_loop source locals hr)⟩
  | exceptionVariable =>
      exact ⟨_, congrArg Prod.fst (convert_exceptionVariable source locals hr)⟩
  | group => exact ⟨_, congrArg Prod.fst (convert_group source locals hr)⟩
  | gate => exact exists_convert_gate source hr locals
  | assignment =>
      cases hleft : c.child? "left" with
      | none => exact ⟨_, congrArg Prod.fst (convert_assignment_of_none source locals hr hleft)⟩
      | some left =>
          rw [convert_assignment_of_some source locals hr hleft]
          split
          · exact ⟨_, rfl⟩
          · split <;> exact ⟨_, rfl⟩
  | plain =>
      rw [convert_plain source locals hr]
      split <;> exact ⟨_, rfl⟩

/-- Nothing comes of siblings that are all keywords and brackets. -/
theorem eachIn_of_unnamed (fields : List String) {cs : List Cst}
    (h : ∀ d ∈ cs, ¬ d.named = true) : eachIn source fields cs locals = ([], locals) := by
  induction cs generalizing fields with
  | nil => rfl
  | cons c cs ih =>
      have ih := fun fields => ih fields fun d hd => h d (List.mem_cons_of_mem _ hd)
      rw [eachIn]
      cases fields.find? (fun f => c.fills f) with
      | some f => exact ih (fields.erase f)
      | none =>
          simp only [if_neg (h c List.mem_cons_self)]
          exact ih fields

/-- Keywords, brackets and comments among siblings become nothing. -/
theorem eachIn_filter (cs : List Cst) :
    eachIn source [] cs locals =
      eachIn source [] (cs.filter fun d => d.named && d.role ≠ .comment) locals := by
  induction cs generalizing locals with
  | nil => rfl
  | cons c cs ih =>
      rw [eachIn, List.filter_cons]
      cases hnamed : c.named with
      | false => simpa using ih locals
      | true =>
          by_cases hcomment : c.role = .comment
          · simp [hcomment, convert_comment source locals hcomment, ih locals]
          · simp [hcomment, eachIn, hnamed, ih]

/-- A group of one part becomes what the part becomes, if that is one node. -/
theorem convert_group_of_filter {d : Cst} {n : Node} (hr : c.role = .group)
    (honly : c.children.filter (fun d => d.named && d.role ≠ .comment) = [d])
    (hone : (convert source d locals).1 = [n]) :
    convert source c locals = convert source d locals := by
  have hnamed : d.named = true := by
    have hmem : d ∈ c.children.filter fun d => d.named && d.role ≠ .comment :=
      honly ▸ List.mem_singleton_self d
    exact (Bool.and_eq_true_iff.1 (List.mem_filter.1 hmem).2).1
  have hparts : eachIn source [] c.children locals = convert source d locals := by
    rw [eachIn_filter, honly]
    simp [eachIn, hnamed]
  rw [convert_group source locals hr, hparts]
  refine Prod.ext ?_ rfl
  simp only [hone]
  rfl

end RubySmells.Cst
