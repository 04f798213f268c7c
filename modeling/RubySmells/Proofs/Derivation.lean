import RubySmells.Proofs.Places
import RubySmells.Proofs.Simplification
import RubySmells.Source

/-!
# How a simplified tree is put together

`Derives` is a relation beside the recursion on the concrete syntax tree: which
nodes can come of reading some constructs of a file one after the other, and
which locals are known before and after. It has one rule for each way in which
a node is made, and says nothing about how the parts of a construct are looked
up. Whatever a construct becomes is derived (`Cst.derivable`), and so is every
simplified tree (`Cst.derives_simplify`); properties of simplified trees are
proved by induction on derivations.
-/

namespace RubySmells

/-- A place that a node fills, or none. -/
def Child.place : Option Node → Child
  | some n => .node n
  | none => .absent

namespace Cst

/-! ## Parts of constructs -/

/-- The node that stands for what a grammar node became where there is room for
one only: several nodes go below one. -/
def gathered (c : Cst) : List Node → Option Node
  | [] => none
  | [n] => some n
  | ns => some (.mk (c.header .other none) (ns.map .node))

/-- What a field becomes where there is room for one node: nothing if the field
is empty or becomes nothing. -/
def filling (source : List UInt8) (c : Cst) (field : String) (locals : NameSet) :
    Option Node :=
  match c.child? field with
  | some d => d.gathered (convert source d locals).1
  | none => none

/-- What the owner of a method becomes. -/
def owner (source : List UInt8) (c : Cst) (locals : NameSet) : List Node :=
  match c.child? "object" with
  | some d => (convert source d locals).1
  | none => []

/-- The parameter list of a method, empty if it is written without one. -/
def ownParameters (source : List UInt8) (c : Cst) : Node :=
  match c.child? "parameters" with
  | some d => d.parameterListNode source
  | none => c.emptyParameterList

/-- The locals that the parameters of a method declare. -/
def ownLocals (source : List UInt8) (c : Cst) : NameSet :=
  match c.child? "parameters" with
  | some d => NameSet.ofList (d.declaredLocals source)
  | none => ∅

theorem kind_ownParameters (source : List UInt8) (c : Cst) :
    (c.ownParameters source).kind = .parameterList := by
  rw [ownParameters]
  cases c.child? "parameters" <;> rfl

theorem single_eq_place (d : Cst) (m : Made) :
    m.single (d.header .other none) = Child.place (d.gathered m.1) := by
  obtain ⟨ns, locals⟩ := m
  rcases ns with _ | ⟨n, _ | ⟨n', ns⟩⟩ <;> rfl

theorem slotIn_eq_place (source : List UInt8) (c : Cst) (field : String) (locals : NameSet) :
    (slotIn source field c.children locals).1 = Child.place (c.filling source field locals) := by
  rw [slotIn_eq, filling, child?]
  cases c.children.find? (fills field) with
  | none => rfl
  | some d => exact single_eq_place d _

theorem convertAt_eq_owner (source : List UInt8) (c : Cst) (locals : NameSet) :
    (convertAt source "object" c.children locals).1 = c.owner source locals := by
  rw [convertAt_eq, owner, child?]
  cases c.children.find? (fills "object") <;> rfl

theorem convert_method (source : List UInt8) {c : Cst} (hr : c.role = .methodDefinition)
    (locals : NameSet) :
    convert source c locals =
      ([.mk (c.header .methodDefinition (some (c.fieldText source "name")))
        ((c.owner source locals).map .node ++ .node (c.ownParameters source) ::
          (eachIn source ["object", "name", "parameters"] c.children
            (c.ownLocals source)).1.map .node)],
        (convertAt source "object" c.children locals).2) := by
  rw [← convertAt_eq_owner, ownParameters, ownLocals]
  obtain ⟨i, cs⟩ := c
  rw [convert, hr]
  cases (Cst.mk i cs).child? "parameters" <;> rfl

theorem convert_conditional (source : List UInt8) {c : Cst} (hr : c.role = .conditional)
    (locals : NameSet) :
    convert source c locals =
      let rest := eachIn source ["condition"] c.children
        (slotIn source "condition" c.children locals).2
      ([.mk (c.header .conditional none)
        (.place (c.filling source "condition" locals) :: rest.1.map .node)], rest.2) := by
  rw [← slotIn_eq_place]
  obtain ⟨i, cs⟩ := c
  rw [convert, hr]
  rfl

theorem convert_call (source : List UInt8) {c : Cst} (hr : c.role = .call) (locals : NameSet) :
    convert source c locals =
      let rest := eachIn source ["receiver", "method"] c.children
        (slotIn source "receiver" c.children locals).2
      ([.mk (c.header .call (some (c.calledName source)))
        (.place (c.filling source "receiver" locals) :: .text (c.calledName source) ::
          rest.1.map .node)], rest.2) := by
  rw [← slotIn_eq_place]
  obtain ⟨i, cs⟩ := c
  rw [convert, hr]
  rfl

/-! ## The nodes of a concrete syntax tree -/

theorem mem_preorderAll {c : Cst} {cs : List Cst} :
    c ∈ preorderAll cs ↔ ∃ d ∈ cs, c ∈ d.preorder := by
  induction cs with
  | nil => simp [preorderAll]
  | cons d cs ih => simp [preorderAll, ih]

theorem mem_preorder {c root : Cst} :
    c ∈ root.preorder ↔ c = root ∨ ∃ d ∈ root.children, c ∈ d.preorder := by
  obtain ⟨i, cs⟩ := root
  rw [preorder, List.mem_cons, mem_preorderAll]
  rfl

theorem mem_preorder_self (c : Cst) : c ∈ c.preorder :=
  mem_preorder.2 (.inl rfl)

theorem mem_preorder_of_mem_children {c d root : Cst} (hc : c ∈ root.preorder)
    (hd : d ∈ c.children) : d ∈ root.preorder := by
  induction root using Cst.induction with
  | step root ih =>
      rcases mem_preorder.1 hc with rfl | ⟨e, he, hc⟩
      · exact mem_preorder.2 (.inr ⟨d, hd, mem_preorder_self d⟩)
      · exact mem_preorder.2 (.inr ⟨e, he, ih e he hc⟩)

end Cst

/-! ## Derivations -/

/-- Constructs of a file, read while some locals are known, become these nodes and
leave these locals known. -/
inductive Derives (source : List UInt8) (root : Cst) : NameSet → List Node → NameSet → Prop
  | nil (locals : NameSet) : Derives source root locals [] locals
  | append {before mid after : NameSet} {ns ms : List Node} :
      Derives source root before ns mid → Derives source root mid ms after →
      Derives source root before (ns ++ ms) after
  /-- A bare word is a variable if it is a known local. -/
  | word {c : Cst} (locals : NameSet) (hc : c ∈ root.preorder) (hr : c.role = .identifier) :
      Derives source root locals [c.resolved source (decide (c.text source ∈ locals))] locals
  | parameters {c : Cst} (locals : NameSet) (hc : c ∈ root.preorder) :
      Derives source root locals [c.parameterListNode source]
        (locals.insertAll (c.declaredLocals source))
  | noParameters (locals : NameSet) (c : Cst) :
      Derives source root locals [c.emptyParameterList] locals
  /-- The target of an assignment is known from the assigned value on. -/
  | assignment {before after : NameSet} {ns : List Node} {h : Header} {name : String}
      (hkind : h.kind = .localAssignment) (hname : h.name = some name) :
      Derives source root (before.insertAll [name]) ns after →
      Derives source root before [.mk h (.text name :: ns.map .node)] after
  | literal (locals : NameSet) (c : Cst) (s : String) :
      Derives source root locals [.mk (c.header .literal none) [.text s]] locals
  | gathering {before after : NameSet} {ns : List Node} {c : Cst} (hr : c.role ≠ .gate) :
      Derives source root before ns after →
      Derives source root before [.mk (c.header .other none) (ns.map .node)] after
  /-- A class or a module starts from no locals. -/
  | definition {after : NameSet} {ns : List Node} {kind : Kind} (before : NameSet) (c : Cst)
      (name : String) (hkind : kind = .classDefinition ∨ kind = .moduleDefinition) :
      Derives source root ∅ ns after →
      Derives source root before [.mk (c.header kind (some name)) (ns.map .node)] before
  | gate {after : NameSet} {ns : List Node} {c : Cst} (before : NameSet)
      (hr : c.role = .gate) :
      Derives source root ∅ ns after →
      Derives source root before [.mk (c.header .other none) (ns.map .node)] before
  | block {after : NameSet} {ns : List Node} (before : NameSet) (c : Cst) :
      Derives source root before ns after →
      Derives source root before [.mk (c.header .block none) (ns.map .node)] before
  /-- The owner of a method is read before the method starts from no locals. -/
  | method {before mid after : NameSet} {body : List Node} {c : Cst} {n : Node}
      (hc : c ∈ root.preorder) (hr : c.role = .methodDefinition)
      (hmade : (Cst.convert source c before).1 = [n])
      (hn : n = .mk (c.header .methodDefinition (some (c.fieldText source "name")))
        ((c.owner source before).map .node ++
          .node (c.ownParameters source) :: body.map .node)) :
      Derives source root before (c.owner source before) mid →
      Derives source root ∅ (c.ownParameters source :: body) after →
      Derives source root before [n] mid
  | conditional {before mid after : NameSet} {rest : List Node} {c : Cst} {n : Node}
      (hc : c ∈ root.preorder) (hr : c.role = .conditional)
      (hmade : (Cst.convert source c before).1 = [n])
      (hn : n = .mk (c.header .conditional none)
        (.place (c.filling source "condition" before) :: rest.map .node)) :
      Derives source root before (c.filling source "condition" before).toList mid →
      Derives source root mid rest after →
      Derives source root before [n] after
  | call {before mid after : NameSet} {rest : List Node} {c : Cst} {n : Node}
      (hc : c ∈ root.preorder) (hr : c.role = .call)
      (hmade : (Cst.convert source c before).1 = [n])
      (hn : n = .mk (c.header .call (some (c.calledName source)))
        (.place (c.filling source "receiver" before) ::
          .text (c.calledName source) :: rest.map .node)) :
      Derives source root before (c.filling source "receiver" before).toList mid →
      Derives source root mid rest after →
      Derives source root before [n] after

namespace Cst

variable {source : List UInt8} {root : Cst}

/-- What was made is derived. -/
def Derived (source : List UInt8) (root : Cst) (before : NameSet) (m : Made) : Prop :=
  Derives source root before m.1 m.2

theorem Derived.append {before : NameSet} {m m' : Made} (h₁ : Derived source root before m)
    (h₂ : Derived source root m.2 m') : Derived source root before (m.1 ++ m'.1, m'.2) :=
  Derives.append h₁ h₂

theorem Derived.wrap {before : NameSet} {m : Made} {c : Cst} (hr : c.role ≠ .gate)
    (h : Derived source root before m) :
    Derived source root before (m.wrap (c.header .other none)) :=
  .gathering hr h

theorem derived_assigned (source : List UInt8) (root c : Cst) (before : NameSet) :
    Derived source root before (assigned source c before) :=
  .assignment rfl rfl (.nil _)

/-- A grammar node is derived, whether it is simplified or taken apart as a target. -/
structure Derivable (source : List UInt8) (root c : Cst) : Prop where
  convert : ∀ before, Derived source root before (convert source c before)
  targets : ∀ before, Derived source root before (targetsBelow source c before)

/-- A construct with locals of its own and no other role becomes one node. -/
theorem exists_convert_gate (source : List UInt8) {c : Cst} (hr : c.role = .gate)
    (locals : NameSet) :
    ∃ n, (convert source c locals).1 = [n] := by
  obtain ⟨i, cs⟩ := c
  rw [convert, hr]
  simp only
  split
  · exact ⟨_, rfl⟩
  · exact ⟨_, rfl⟩

section Below

variable {cs : List Cst} (h : ∀ d ∈ cs, Derivable source root d)

include h

theorem derived_eachIn (fields : List String) (before : NameSet) :
    Derived source root before (eachIn source fields cs before) := by
  induction cs generalizing fields before with
  | nil =>
      rw [eachIn]
      exact .nil before
  | cons c cs ih =>
      have ih := ih fun d hd => h d (List.mem_cons_of_mem _ hd)
      rw [eachIn]
      cases fields.find? (fun f => c.fills f) with
      | some f => exact ih (fields.erase f) before
      | none =>
          cases c.named with
          | false => exact ih fields before
          | true => exact .append ((h c List.mem_cons_self).convert before) (ih fields _)

theorem derived_targetsIn (before : NameSet) :
    Derived source root before (targetsIn source cs before) := by
  induction cs generalizing before with
  | nil =>
      rw [targetsIn]
      exact .nil before
  | cons c cs ih =>
      have ih := ih fun d hd => h d (List.mem_cons_of_mem _ hd)
      have hc := h c List.mem_cons_self
      rw [targetsIn]
      refine .append ?_ (ih _)
      by_cases hnamed : (!c.named) = true
      · rw [if_pos hnamed]
        exact .nil before
      · rw [if_neg hnamed]
        split
        · exact derived_assigned source root c before
        · split
          · exact hc.targets before
          · exact hc.convert before

end Below

section Constructs

variable {c : Cst} (h : ∀ d ∈ c.children, Derivable source root d) (before : NameSet)

include h

theorem derives_filling (field : String) :
    Derives source root before (c.filling source field before).toList
      (slotIn source field c.children before).2 := by
  rw [slotIn_eq, filling, child?]
  cases hd : c.children.find? (fills field) with
  | none => exact .nil before
  | some d =>
      have hconvert := (h d (List.mem_of_find?_eq_some hd)).convert before
      have hgate := fun hr : d.role = .gate => exists_convert_gate source hr before
      show Derives source root before (d.gathered (convert source d before).1).toList
        (convert source d before).2
      revert hconvert hgate
      generalize convert source d before = m
      obtain ⟨ns, after⟩ := m
      intro hconvert hgate
      rcases ns with _ | ⟨n, _ | ⟨n', ns⟩⟩
      · exact hconvert
      · exact hconvert
      · refine .gathering (fun hr => ?_) hconvert
        obtain ⟨n, hn⟩ := hgate hr
        exact absurd hn (by simp)

theorem derived_method (hc : c ∈ root.preorder) (hr : c.role = .methodDefinition) :
    Derived source root before (convert source c before) := by
  have howner : Derived source root before (convertAt source "object" c.children before) := by
    rw [convertAt_eq]
    cases hd : c.children.find? (fills "object") with
    | none => exact .nil before
    | some d => exact (h d (List.mem_of_find?_eq_some hd)).convert before
  have hparameters : Derives source root ∅ [c.ownParameters source] (c.ownLocals source) := by
    rw [ownParameters, ownLocals]
    cases hd : c.child? "parameters" with
    | none => exact .noParameters ∅ c
    | some d =>
        exact .parameters ∅ (mem_preorder_of_mem_children hc (List.mem_of_find?_eq_some hd))
  have hbody := derived_eachIn h ["object", "name", "parameters"] (c.ownLocals source)
  have hmade := congrArg Prod.fst (convert_method source hr before)
  rw [Derived, convert_method source hr]
  rw [Derived, convertAt_eq_owner] at howner
  exact .method hc hr hmade rfl howner (.append hparameters hbody)

theorem derived_block (hc : c ∈ root.preorder) (hr : c.role = .block) :
    Derived source root before (convert source c before) := by
  have hbody := fun start => derived_eachIn h ["parameters"] start
  have hlist : ∀ d, c.child? "parameters" = some d → d ∈ root.preorder := fun d hd =>
    mem_preorder_of_mem_children hc (List.mem_of_find?_eq_some hd)
  obtain ⟨i, cs⟩ := c
  rw [convert, hr]
  cases hd : (Cst.mk i cs).child? "parameters" with
  | none => exact .block before _ (hbody before)
  | some d => exact .block before _ (.append (.parameters before (hlist d hd)) (hbody _))

theorem derived_assignment (hr : c.role = .assignment) :
    Derived source root before (convert source c before) := by
  have hparts := derived_eachIn h [] before
  have hvalues := fun start => derived_eachIn h ["left"] start
  have hgate : c.role ≠ .gate := by simp [hr]
  have htargets : Derived source root before (targetsAt source "left" c.children before) := by
    rw [targetsAt_eq]
    cases hd : c.children.find? (fills "left") with
    | none => exact .nil before
    | some d => exact (h d (List.mem_of_find?_eq_some hd)).targets before
  obtain ⟨i, cs⟩ := c
  rw [convert, hr]
  cases hleft : (Cst.mk i cs).child? "left" with
  | none => exact .wrap hgate hparts
  | some left =>
      simp only
      split
      · exact .assignment rfl rfl (hvalues _)
      · split
        · exact .wrap hgate (.append htargets (hvalues _))
        · exact .wrap hgate hparts

theorem derived_loop (hr : c.role = .loop) :
    Derived source root before (convert source c before) := by
  have hrest := fun start => derived_eachIn h ["pattern"] start
  have htarget : Derived source root before (loopTargetAt source c.children before) := by
    rw [loopTargetAt_eq]
    cases hd : c.children.find? (fills "pattern") with
    | none => exact .nil before
    | some d =>
        simp only
        split
        · exact derived_assigned source root d before
        · exact (h d (List.mem_of_find?_eq_some hd)).targets before
  have hgate : c.role ≠ .gate := by simp [hr]
  obtain ⟨i, cs⟩ := c
  rw [convert, hr]
  exact .wrap hgate (.append htarget (hrest _))

theorem derived_group (hr : c.role = .group) :
    Derived source root before (convert source c before) := by
  have hparts := derived_eachIn h [] before
  have hgate : c.role ≠ .gate := by simp [hr]
  obtain ⟨i, cs⟩ := c
  rw [convert, hr]
  simp only
  revert hparts
  simp only [children]
  generalize eachIn source [] cs before = m
  rcases m with ⟨_ | ⟨n, _ | ⟨n', ns⟩⟩, after⟩ <;> intro hparts
  · exact .wrap hgate hparts
  · exact hparts
  · exact .wrap hgate hparts

theorem derived_convert (hc : c ∈ root.preorder) :
    Derived source root before (convert source c before) := by
  have hparts := fun fields start => derived_eachIn h fields start
  cases hr : c.role with
  | methodDefinition => exact derived_method h before hc hr
  | block => exact derived_block h before hc hr
  | assignment => exact derived_assignment h before hr
  | loop => exact derived_loop h before hr
  | group => exact derived_group h before hr
  | classDefinition =>
      obtain ⟨i, cs⟩ := c
      rw [convert, hr]
      exact .definition before _ _ (.inl rfl) (hparts ["name"] ∅)
  | moduleDefinition =>
      obtain ⟨i, cs⟩ := c
      rw [convert, hr]
      exact .definition before _ _ (.inr rfl) (hparts ["name"] ∅)
  | gate =>
      obtain ⟨i, cs⟩ := c
      rw [convert, hr]
      simp only
      split
      · exact .literal before _ _
      · exact .gate before hr (hparts [] ∅)
  | plain =>
      have hgate : c.role ≠ .gate := by simp [hr]
      obtain ⟨i, cs⟩ := c
      rw [convert, hr]
      simp only
      split
      · exact .literal before _ _
      · exact .wrap hgate (hparts [] before)
  | conditional =>
      have hmade := congrArg Prod.fst (convert_conditional source hr before)
      rw [Derived, convert_conditional source hr]
      exact .conditional hc hr hmade rfl (derives_filling h before "condition")
        (hparts ["condition"] _)
  | call =>
      have hmade := congrArg Prod.fst (convert_call source hr before)
      rw [Derived, convert_call source hr]
      exact .call hc hr hmade rfl (derives_filling h before "receiver")
        (hparts ["receiver", "method"] _)
  | comment =>
      obtain ⟨i, cs⟩ := c
      rw [convert, hr]
      exact .nil before
  | wrapper =>
      obtain ⟨i, cs⟩ := c
      rw [convert, hr]
      exact hparts [] before
  | parameterList =>
      obtain ⟨i, cs⟩ := c
      rw [convert, hr]
      exact .parameters before hc
  | identifier =>
      have hword : Derives source root before [c.resolved source _] before :=
        .word before hc hr
      obtain ⟨i, cs⟩ := c
      rw [convert, hr]
      exact hword
  | exceptionVariable =>
      have htargets := derived_targetsIn h before
      have hgate : c.role ≠ .gate := by simp [hr]
      obtain ⟨i, cs⟩ := c
      rw [convert, hr]
      exact .wrap hgate htargets

end Constructs

/-- What a construct of a file becomes, by itself or as a target, is derived. -/
theorem derivable {c : Cst} (hc : c ∈ root.preorder) : Derivable source root c := by
  induction c using Cst.induction with
  | step c ih =>
      have ih := fun d hd => ih d hd (mem_preorder_of_mem_children hc hd)
      constructor
      · exact fun before => derived_convert ih before hc
      · intro before
        have htargets := derived_targetsIn ih before
        obtain ⟨i, cs⟩ := c
        rw [targetsBelow]
        exact htargets

/-- The nodes at the top of a simplified tree are derived, from no locals. -/
theorem derives_simplify (source : List UInt8) (root : Cst) :
    ∃ ns after, (root.simplify source).children = ns.map .node ∧ Derives source root ∅ ns after := by
  refine ⟨_, _, rfl, derived_eachIn (fun d hd => ?_) [] ∅⟩
  exact derivable (mem_preorder_of_mem_children (mem_preorder_self root) hd)

end Cst

/-- A source file without a fault is simplified. -/
theorem Source.parse_eq {grammar : Grammar} {source : List UInt8}
    (h : (grammar source).hasError = false) (path : String) :
    Source.parse grammar path source = .ok ((grammar source).root.simplify source) := by
  simp [Source.parse, Parsed.fault?, h, Cst.build_eq]

/-- The grammar that makes one tree of every source file. -/
def Grammar.constant (root : Cst) : Grammar := fun _ => { root := root }

theorem Source.eq_simplify_of_parse {root : Cst} {path : String} {source : List UInt8}
    {tree : Node} (h : Source.parse (.constant root) path source = .ok tree) :
    tree = root.simplify source :=
  Except.ok.inj (h.symm.trans (Source.parse_eq rfl path))

end RubySmells
