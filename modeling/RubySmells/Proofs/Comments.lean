import RubySmells.Proofs.Constructs
import RubySmells.Proofs.Outline

/-!
# Comments

A concrete syntax tree without some of its comments (`Cst.without`) is simplified
to a tree with the same outline (`Cst.outline_simplify_without`), so the same is
found in both, and the same is printed (`Source.same_findings_without_comments`).

The two simplified trees need not be the same: a construct with nothing but a
comment below it becomes a node without parts, and without the comment a literal.
-/

namespace RubySmells

/-! ## Deleting comments -/

namespace Cst

/-- A comment with nothing below it that fills no field. -/
def isBareComment (c : Cst) : Bool :=
  c.type = "comment" && c.children.isEmpty && c.info.field.isNone

mutual

/-- The tree without the bare comments below its root whose addresses are in a
set. Positions count all children, and all of them as they were before. -/
def without : (gone : Address → Bool) → Cst → Cst
  | gone, .mk i cs => .mk i (withoutAll gone 0 cs)

/-- The trees that stand side by side, the first of them at a given position,
without the bare comments in a set. -/
def withoutAll : (gone : Address → Bool) → Nat → List Cst → List Cst
  | _, _, [] => []
  | gone, i, c :: cs =>
    if c.isBareComment && gone [i] then withoutAll gone (i + 1) cs
    else c.without (fun a => gone (i :: a)) :: withoutAll gone (i + 1) cs

end

/-! ### What stays -/

section Without

variable (gone : Address → Bool) (c : Cst)

theorem children_without : (c.without gone).children = withoutAll gone 0 c.children := by
  cases c
  rfl

@[simp] theorem info_without : (c.without gone).info = c.info := by
  cases c
  rfl

@[simp] theorem type_without : (c.without gone).type = c.type :=
  congrArg Info.type (c.info_without gone)

@[simp] theorem named_without : (c.without gone).named = c.named :=
  congrArg Info.named (c.info_without gone)

@[simp] theorem role_without : (c.without gone).role = c.role :=
  congrArg Role.ofType (c.type_without gone)

@[simp] theorem line_without : (c.without gone).line = c.line := by
  rw [line, line, info_without]

@[simp] theorem fills_without (field : String) : (c.without gone).fills field = c.fills field := by
  rw [fills, fills, info_without]

@[simp] theorem text_without (source : List UInt8) :
    (c.without gone).text source = c.text source := by
  rw [text, text, chars, chars, info_without]

@[simp] theorem header_without (kind : Kind) (name : Option String) :
    (c.without gone).header kind name = c.header kind name := by
  rw [header, header, type_without, line_without]

@[simp] theorem gathered_without (ns : List Node) :
    (c.without gone).gathered ns = c.gathered ns := by
  unfold gathered
  rw [header_without]

theorem resolved_without (source : List UInt8) (isLocal : Bool) :
    (c.without gone).resolved source isLocal = c.resolved source isLocal := by
  simp only [resolved, header_without, text_without]

end Without

theorem type_of_isBareComment {c : Cst} (h : c.isBareComment = true) : c.type = "comment" := by
  simp only [isBareComment, Bool.and_eq_true, decide_eq_true_eq] at h
  exact h.1.1

theorem role_of_isBareComment {c : Cst} (h : c.isBareComment = true) : c.role = .comment :=
  congrArg Role.ofType (type_of_isBareComment h)

theorem fills_of_isBareComment {c : Cst} (h : c.isBareComment = true) (field : String) :
    c.fills field = false := by
  simp only [isBareComment, Bool.and_eq_true, Option.isNone_iff_eq_none] at h
  rw [fills, h.2]
  rfl

theorem children_of_isBareComment {c : Cst} (h : c.isBareComment = true) : c.children = [] := by
  simp only [isBareComment, Bool.and_eq_true, List.isEmpty_iff] at h
  exact h.1.2

/-- Of a node and those after it, the node is deleted or kept. -/
theorem withoutAll_cons (gone : Address → Bool) (i : Nat) (c : Cst) (cs : List Cst) :
    c.isBareComment = true ∧ withoutAll gone i (c :: cs) = withoutAll gone (i + 1) cs ∨
      ∃ g, withoutAll gone i (c :: cs) = c.without g :: withoutAll gone (i + 1) cs := by
  rw [withoutAll]
  split
  · rename_i hgone
    exact .inl ⟨(Bool.and_eq_true_iff.1 hgone).1, rfl⟩
  · exact .inr ⟨_, rfl⟩

/-! ### Fields and parameters -/

theorem find?_withoutAll (field : String) (gone : Address → Bool) (i : Nat) (cs : List Cst) :
    ∃ g, (withoutAll gone i cs).find? (fills field) =
      (cs.find? (fills field)).map (without g) := by
  induction cs generalizing i with
  | nil => exact ⟨gone, rfl⟩
  | cons c cs ih =>
      obtain ⟨g, hg⟩ := ih (i + 1)
      rw [List.find?_cons]
      rcases withoutAll_cons gone i c cs with ⟨hbare, heq⟩ | ⟨g', heq⟩
      · rw [heq, fills_of_isBareComment hbare]
        exact ⟨g, hg⟩
      · rw [heq, List.find?_cons, fills_without]
        cases c.fills field with
        | true => exact ⟨g', rfl⟩
        | false => exact ⟨g, hg⟩

theorem child?_without (field : String) (gone : Address → Bool) (c : Cst) :
    ∃ g, (c.without gone).child? field = (c.child? field).map (without g) := by
  rw [child?, children_without]
  exact find?_withoutAll field gone 0 c.children

/-- Whatever is read off the children one by one stays if nothing is read off
comments. -/
theorem flatMap_withoutAll {α : Type} {f : Cst → List α} {cs : List Cst}
    (hf : ∀ c ∈ cs, ∀ g, f (c.without g) = f c)
    (hbare : ∀ c, c.isBareComment = true → f c = []) (gone : Address → Bool) (i : Nat) :
    (withoutAll gone i cs).flatMap f = cs.flatMap f := by
  induction cs generalizing i with
  | nil => rfl
  | cons c cs ih =>
      have ih := ih (fun d hd => hf d (List.mem_cons_of_mem _ hd)) (i + 1)
      rw [List.flatMap_cons]
      rcases withoutAll_cons gone i c cs with ⟨hc, heq⟩ | ⟨g, heq⟩
      · rw [heq, ih, hbare c hc, List.nil_append]
      · rw [heq, List.flatMap_cons, ih, hf c List.mem_cons_self]

theorem flatMap_filter_withoutAll {α : Type} {p : Cst → Bool} {f : Cst → List α} {cs : List Cst}
    (hp : ∀ c g, p (c.without g) = p c) (hf : ∀ c ∈ cs, ∀ g, f (c.without g) = f c)
    (hbare : ∀ c, c.isBareComment = true → p c = false) (gone : Address → Bool) (i : Nat) :
    ((withoutAll gone i cs).filter p).flatMap f = (cs.filter p).flatMap f := by
  have hfilter : ∀ ds : List Cst,
      (ds.filter p).flatMap f = ds.flatMap fun d => if p d then f d else [] := by
    intro ds
    induction ds with
    | nil => rfl
    | cons d ds ih =>
        rw [List.filter_cons, List.flatMap_cons, ← ih]
        cases p d <;> rfl
  rw [hfilter, hfilter]
  refine flatMap_withoutAll (fun c hc g => ?_) (fun c hc => ?_) gone i
  · rw [hp, hf c hc]
  · rw [hbare c hc]
    rfl

/-- The bare words in a pattern stay. -/
theorem words_without (source : List UInt8) (gone : Address → Bool) (c : Cst) :
    ((c.without gone).preorder.filter (·.role = .identifier)).map (text source) =
      (c.preorder.filter (·.role = .identifier)).map (text source) := by
  induction c using Cst.induction generalizing gone with
  | step c ih =>
      have hbare : ∀ d : Cst, d.isBareComment = true →
          (d.preorder.filter (·.role = .identifier)).map (text source) = [] := by
        intro d hd
        rw [preorder_eq, children_of_isBareComment hd]
        simp [role_of_isBareComment hd]
      have hbelow := flatMap_withoutAll ih hbare gone 0
      rw [← List.map_flatMap, ← List.map_flatMap, ← List.filter_flatMap, ← List.filter_flatMap,
        ← children_without] at hbelow
      rw [preorder_eq, preorder_eq c, List.filter_cons, List.filter_cons, role_without]
      split
      · rw [List.map_cons, List.map_cons, text_without, hbelow]
      · exact hbelow

theorem parameterName_without (source : List UInt8) (gone : Address → Bool) (c : Cst) :
    (c.without gone).parameterName source = c.parameterName source := by
  obtain ⟨g, hname⟩ := child?_without "name" gone c
  rw [parameterName, parameterName, role_without, text_without, hname]
  cases c.child? "name" with
  | none => rfl
  | some d => simp only [Option.map_some, text_without]

theorem parameterLocals_without (source : List UInt8) (gone : Address → Bool) (c : Cst) :
    (c.without gone).parameterLocals source = c.parameterLocals source := by
  rw [parameterLocals, parameterLocals, type_without, words_without, parameterName_without]

/-- What is read off the parameters one by one stays. -/
theorem flatMap_parameters_without {α : Type} {f : Cst → List α}
    (hf : ∀ c g, f (c.without g) = f c) (gone : Address → Bool) (c : Cst) :
    (c.without gone).parameters.flatMap f = c.parameters.flatMap f := by
  rw [parameters, parameters, children_without]
  refine flatMap_filter_withoutAll (fun d g => ?_) (fun d _ g => hf d g) (fun d hd => ?_) gone 0
  · simp only [named_without, fills_without, role_without]
  · simp [role_of_isBareComment hd]

theorem parameterNames_without (source : List UInt8) (gone : Address → Bool) (c : Cst) :
    (c.without gone).parameterNames source = c.parameterNames source := by
  rw [parameterNames, parameterNames, List.map_eq_flatMap, List.map_eq_flatMap]
  refine flatMap_parameters_without (fun d g => ?_) gone c
  rw [parameterName_without]

theorem parameterListNode_without (source : List UInt8) (gone : Address → Bool) (c : Cst) :
    (c.without gone).parameterListNode source = c.parameterListNode source := by
  rw [parameterListNode, parameterListNode, header_without, parameterNames_without]

theorem declaredLocals_without (source : List UInt8) (gone : Address → Bool) (c : Cst) :
    (c.without gone).declaredLocals source = c.declaredLocals source := by
  have hbeside : ((c.without gone).childrenAt "locals").map (text source) =
      (c.childrenAt "locals").map (text source) := by
    rw [childrenAt, childrenAt, children_without, List.map_eq_flatMap, List.map_eq_flatMap]
    refine flatMap_filter_withoutAll (fun d g => ?_) (fun d _ g => ?_) (fun d hd => ?_) gone 0
    · rw [fills_without]
    · rw [text_without]
    · exact fills_of_isBareComment hd "locals"
  rw [declaredLocals, declaredLocals, hbeside,
    flatMap_parameters_without fun d g => parameterLocals_without source g d]

end Cst

/-! ## Nodes with the same outlines -/

theorem Child.outlineAll_place_cons (o : Option Node) (cs : List Child) :
    Child.outlineAll (.place o :: cs) = .place (o.map Node.outline) :: Child.outlineAll cs := by
  cases o <;> rfl

namespace Cst

/-- Nodes with the same outlines, and the same locals known afterwards. -/
structure Made.Alike (m m' : Made) : Prop where
  nodes : m.1.map Node.outline = m'.1.map Node.outline
  locals : m.2 = m'.2

namespace Made.Alike

variable {m m' m'' : Made}

theorem refl (m : Made) : m.Alike m := ⟨rfl, rfl⟩

theorem symm (h : m.Alike m') : m'.Alike m := ⟨h.nodes.symm, h.locals.symm⟩

theorem trans (h : m.Alike m') (h' : m'.Alike m'') : m.Alike m'' :=
  ⟨h.nodes.trans h'.nodes, h.locals.trans h'.locals⟩

/-- One thing after the other, the second with the locals known after the first. -/
theorem andThen {next next' : NameSet → Made} (h : m.Alike m')
    (hnext : ∀ locals, (next locals).Alike (next' locals)) :
    Made.Alike (m.1 ++ (next m.2).1, (next m.2).2) (m'.1 ++ (next' m'.2).1, (next' m'.2).2) := by
  have hsecond := hnext m'.2
  rw [h.locals]
  refine ⟨?_, hsecond.locals⟩
  rw [List.map_append, List.map_append, h.nodes, hsecond.nodes]

theorem children (h : m.Alike m') :
    Child.outlineAll (m.1.map .node) = Child.outlineAll (m'.1.map .node) := by
  rw [Child.outlineAll_map_node, Child.outlineAll_map_node, h.nodes]

theorem node {h : Header} {cs cs' : List Child} {locals locals' : NameSet}
    (hcs : Child.outlineAll cs = Child.outlineAll cs') (hlocals : locals = locals') :
    Made.Alike ([.mk h cs], locals) ([.mk h cs'], locals') :=
  ⟨congrArg ([·]) (Node.outline_congr h hcs), hlocals⟩

theorem wrap (h : m.Alike m') (header : Header) : (m.wrap header).Alike (m'.wrap header) :=
  node h.children h.locals

theorem gathered (h : m.Alike m') (c : Cst) :
    (c.gathered m.1).map Node.outline = (c.gathered m'.1).map Node.outline := by
  have hchildren := h.children
  obtain ⟨ns, _⟩ := m
  obtain ⟨ns', _⟩ := m'
  have hnodes : ns.map Node.outline = ns'.map Node.outline := h.nodes
  have hlength : ns.length = ns'.length := by
    simpa using congrArg List.length hnodes
  match ns, ns' with
  | [], [] => rfl
  | [n], [n'] => exact congrArg List.head? hnodes
  | _ :: _ :: _, _ :: _ :: _ => exact congrArg some (Node.outline_congr _ hchildren)
  | [], _ :: _ => exact absurd hlength (by simp)
  | _ :: _, [] => exact absurd hlength (by simp)
  | [_], _ :: _ :: _ => exact absurd hlength (by simp)
  | _ :: _ :: _, [_] => exact absurd hlength (by simp)

end Made.Alike

/-! ## Simplification without comments -/

/-- Comments in a grammar node make no difference, whether it is simplified or taken
apart as a target. -/
structure Indifferent (source : List UInt8) (c : Cst) : Prop where
  convert : ∀ gone locals,
    (convert source c locals).Alike (convert source (c.without gone) locals)
  targets : ∀ gone locals,
    (targetsBelow source c locals).Alike (targetsBelow source (c.without gone) locals)

theorem assigned_without (source : List UInt8) (gone : Address → Bool) (c : Cst)
    (locals : NameSet) : assigned source (c.without gone) locals = assigned source c locals := by
  rw [assigned, assigned, text_without, header_without]

section Below

variable {source : List UInt8} {cs : List Cst} (h : ∀ d ∈ cs, Indifferent source d)
  (gone : Address → Bool)

include h

theorem alike_eachIn (fields : List String) (i : Nat) (locals : NameSet) :
    (eachIn source fields cs locals).Alike
      (eachIn source fields (withoutAll gone i cs) locals) := by
  induction cs generalizing fields i locals with
  | nil => exact .refl _
  | cons c cs ih =>
      have ih := fun fields => ih (fun d hd => h d (List.mem_cons_of_mem _ hd)) fields (i + 1)
      rcases withoutAll_cons gone i c cs with ⟨hbare, heq⟩ | ⟨g, heq⟩
      · -- A bare comment fills no field, and it becomes nothing, named or not.
        have hnone : fields.find? (fun f => c.fills f) = none := by
          simp [fills_of_isBareComment hbare]
        rw [heq, eachIn, hnone]
        simp only [convert_comment source locals (role_of_isBareComment hbare), List.nil_append,
          ite_self]
        exact ih fields locals
      · rw [heq, eachIn, eachIn]
        simp only [fills_without, named_without]
        cases fields.find? (fun f => c.fills f) with
        | some f => exact ih (fields.erase f) locals
        | none =>
            cases c.named with
            | false => exact ih fields locals
            | true => exact ((h c List.mem_cons_self).convert g locals).andThen (ih fields)

theorem alike_targetsIn (i : Nat) (locals : NameSet) :
    (targetsIn source cs locals).Alike (targetsIn source (withoutAll gone i cs) locals) := by
  induction cs generalizing i locals with
  | nil => exact .refl _
  | cons c cs ih =>
      have ih := ih (fun d hd => h d (List.mem_cons_of_mem _ hd)) (i + 1)
      rcases withoutAll_cons gone i c cs with ⟨hbare, heq⟩ | ⟨g, heq⟩
      · have hconvert := convert_comment source locals (role_of_isBareComment hbare)
        rw [heq, targetsIn]
        simp [role_of_isBareComment hbare, type_of_isBareComment hbare, hconvert]
        exact ih locals
      · rw [heq, targetsIn, targetsIn]
        simp only [named_without, role_without, type_without, assigned_without]
        have hc := h c List.mem_cons_self
        refine Made.Alike.andThen ?_ ih
        split
        · exact .refl _
        · split
          · exact .refl _
          · split
            · exact hc.targets g locals
            · exact hc.convert g locals

end Below

section Constructs

variable {source : List UInt8} {c : Cst} (gone : Address → Bool) (locals : NameSet)

theorem fieldText_without (source : List UInt8) (gone : Address → Bool) (c : Cst)
    (field : String) : (c.without gone).fieldText source field = c.fieldText source field := by
  obtain ⟨g, hg⟩ := child?_without field gone c
  rw [fieldText, fieldText, hg]
  cases c.child? field with
  | none => rfl
  | some d => exact d.text_without g source

theorem calledName_without (source : List UInt8) (gone : Address → Bool) (c : Cst) :
    (c.without gone).calledName source = c.calledName source := by
  obtain ⟨g, hg⟩ := child?_without "method" gone c
  rw [calledName, calledName, hg]
  cases c.child? "method" with
  | none => rfl
  | some d => exact d.text_without g source

theorem ownParameters_without (source : List UInt8) (gone : Address → Bool) (c : Cst) :
    (c.without gone).ownParameters source = c.ownParameters source := by
  obtain ⟨g, hg⟩ := child?_without "parameters" gone c
  rw [ownParameters, ownParameters, hg]
  cases c.child? "parameters" with
  | none => rw [Option.map_none, emptyParameterList, emptyParameterList, line_without]
  | some d => exact parameterListNode_without source g d

theorem ownLocals_without (source : List UInt8) (gone : Address → Bool) (c : Cst) :
    (c.without gone).ownLocals source = c.ownLocals source := by
  obtain ⟨g, hg⟩ := child?_without "parameters" gone c
  rw [ownLocals, ownLocals, hg]
  cases c.child? "parameters" with
  | none => rfl
  | some d => exact congrArg NameSet.ofList (declaredLocals_without source g d)

theorem blockParameters_without (source : List UInt8) (gone : Address → Bool) (c : Cst)
    (locals : NameSet) :
    (c.without gone).blockParameters source locals = c.blockParameters source locals := by
  obtain ⟨g, hg⟩ := child?_without "parameters" gone c
  rw [blockParameters, blockParameters, hg]
  cases c.child? "parameters" with
  | none => rfl
  | some d =>
      simp only [Option.map_some, parameterListNode_without, declaredLocals_without]

/-- An empty construct looks like a node without parts. -/
theorem alike_plain (source : List UInt8) {c : Cst} (locals : NameSet) (hr : c.role = .plain) :
    (convert source c locals).Alike
      (Made.wrap (eachIn source [] c.children locals) (c.header .other none)) := by
  rw [convert_plain source locals hr]
  split
  · rename_i hempty
    have hunnamed : ∀ d ∈ c.children, ¬ d.named = true := by
      simpa [namedChildren] using hempty
    rw [eachIn_of_unnamed source locals [] hunnamed]
    exact ⟨rfl, rfl⟩
  · exact .refl _

theorem alike_gate (source : List UInt8) {c : Cst} (locals : NameSet) (hr : c.role = .gate) :
    (convert source c locals).Alike
      ([.mk (c.header .other none) ((eachIn source [] c.children ∅).1.map .node)], locals) := by
  rw [convert_gate source locals hr]
  split
  · rename_i hempty
    have hunnamed : ∀ d ∈ c.children, ¬ d.named = true := by
      simpa [namedChildren] using hempty
    rw [eachIn_of_unnamed source ∅ [] hunnamed]
    exact ⟨rfl, rfl⟩
  · exact .refl _

variable (h : ∀ d ∈ c.children, Indifferent source d)

include h

theorem alike_parts (fields : List String) (locals : NameSet) :
    (eachIn source fields c.children locals).Alike
      (eachIn source fields (c.without gone).children locals) := by
  rw [children_without]
  exact alike_eachIn h gone fields 0 locals

theorem alike_convertAt (field : String) :
    (convertAt source field c.children locals).Alike
      (convertAt source field (c.without gone).children locals) := by
  obtain ⟨g, hg⟩ := find?_withoutAll field gone 0 c.children
  rw [children_without, convertAt_eq, convertAt_eq, hg]
  cases hd : c.children.find? (fills field) with
  | none => exact .refl _
  | some d => exact (h d (List.mem_of_find?_eq_some hd)).convert g locals

theorem alike_targetsAt (field : String) :
    (targetsAt source field c.children locals).Alike
      (targetsAt source field (c.without gone).children locals) := by
  obtain ⟨g, hg⟩ := find?_withoutAll field gone 0 c.children
  rw [children_without, targetsAt_eq, targetsAt_eq, hg]
  cases hd : c.children.find? (fills field) with
  | none => exact .refl _
  | some d => exact (h d (List.mem_of_find?_eq_some hd)).targets g locals

theorem alike_loopTargetAt :
    (loopTargetAt source c.children locals).Alike
      (loopTargetAt source (c.without gone).children locals) := by
  obtain ⟨g, hg⟩ := find?_withoutAll "pattern" gone 0 c.children
  rw [children_without, loopTargetAt_eq, loopTargetAt_eq, hg]
  cases hd : c.children.find? (fills "pattern") with
  | none => exact .refl _
  | some d =>
      simp only [Option.map_some, role_without, assigned_without]
      split
      · exact .refl _
      · exact (h d (List.mem_of_find?_eq_some hd)).targets g locals

/-- What fills one place looks the same, and so do the locals known after it. -/
theorem alike_filling (field : String) :
    (c.filling source field locals).map Node.outline =
        ((c.without gone).filling source field locals).map Node.outline ∧
      (slotIn source field c.children locals).2 =
        (slotIn source field (c.without gone).children locals).2 := by
  obtain ⟨g, hg⟩ := child?_without field gone c
  have hg' : (c.without gone).children.find? (fills field) = _ := hg
  rw [slotIn_eq, slotIn_eq, hg', filling, filling, hg, child?]
  cases hd : c.children.find? (fills field) with
  | none => exact ⟨rfl, rfl⟩
  | some d =>
      have hconvert := (h d (List.mem_of_find?_eq_some hd)).convert g locals
      refine ⟨?_, hconvert.locals⟩
      simp only [Option.map_some, gathered_without]
      exact hconvert.gathered d

theorem alike_method (hr : c.role = .methodDefinition) :
    (convert source c locals).Alike (convert source (c.without gone) locals) := by
  have howner := alike_convertAt gone locals h "object"
  have hbody := alike_parts gone h ["object", "name", "parameters"] (c.ownLocals source)
  have hchildren := howner.children
  rw [convertAt_eq_owner, convertAt_eq_owner] at hchildren
  rw [convert_method source hr, convert_method source (c.role_without gone ▸ hr)]
  simp only [header_without, fieldText_without, ownParameters_without, ownLocals_without]
  refine .node ?_ howner.locals
  simp only [Child.outlineAll_append, Child.outlineAll, hchildren, hbody.children]

theorem alike_block (hr : c.role = .block) :
    (convert source c locals).Alike (convert source (c.without gone) locals) := by
  have hbody := alike_parts gone h ["parameters"] (c.blockParameters source locals).2
  rw [convert_block source locals hr, convert_block source locals (c.role_without gone ▸ hr)]
  simp only [header_without, blockParameters_without, List.map_append]
  refine .node ?_ rfl
  rw [Child.outlineAll_append, Child.outlineAll_append, hbody.children]

theorem alike_conditional (hr : c.role = .conditional) :
    (convert source c locals).Alike (convert source (c.without gone) locals) := by
  obtain ⟨htest, hlocals⟩ := alike_filling gone locals h "condition"
  have hrest := alike_parts gone h ["condition"] (slotIn source "condition" c.children locals).2
  rw [convert_conditional source hr, convert_conditional source (c.role_without gone ▸ hr)]
  simp only [header_without, ← hlocals]
  refine .node ?_ hrest.locals
  rw [Child.outlineAll_place_cons, Child.outlineAll_place_cons, htest, hrest.children]

theorem alike_call (hr : c.role = .call) :
    (convert source c locals).Alike (convert source (c.without gone) locals) := by
  obtain ⟨hreceiver, hlocals⟩ := alike_filling gone locals h "receiver"
  have hrest := alike_parts gone h ["receiver", "method"]
    (slotIn source "receiver" c.children locals).2
  rw [convert_call source hr, convert_call source (c.role_without gone ▸ hr)]
  simp only [header_without, calledName_without, ← hlocals]
  refine .node ?_ hrest.locals
  rw [Child.outlineAll_place_cons, Child.outlineAll_place_cons, hreceiver, Child.outlineAll,
    Child.outlineAll, hrest.children]

theorem alike_assignment (hr : c.role = .assignment) :
    (convert source c locals).Alike (convert source (c.without gone) locals) := by
  have hparts := (alike_parts gone h [] locals).wrap (c.header .other none)
  have hr' : (c.without gone).role = .assignment := c.role_without gone ▸ hr
  obtain ⟨g, hg⟩ := child?_without "left" gone c
  cases hleft : c.child? "left" with
  | none =>
      rw [hleft] at hg
      rw [convert_assignment_of_none source locals hr hleft,
        convert_assignment_of_none source locals hr' hg, header_without]
      exact hparts
  | some left =>
      rw [hleft] at hg
      rw [convert_assignment_of_some source locals hr hleft,
        convert_assignment_of_some source locals hr' hg]
      simp only [role_without, type_without, text_without, line_without, header_without]
      split
      · have hvalues := alike_parts gone h ["left"] (locals.insertAll [left.text source])
        refine .node ?_ hvalues.locals
        rw [Child.outlineAll, Child.outlineAll, hvalues.children]
      · split
        · exact .wrap ((alike_targetsAt gone locals h "left").andThen
            (alike_parts gone h ["left"])) _
        · exact hparts

theorem alike_convert :
    (convert source c locals).Alike (convert source (c.without gone) locals) := by
  have hparts := alike_parts gone h
  have hwithout : (c.without gone).role = c.role := c.role_without gone
  cases hr : c.role with
  | methodDefinition => exact alike_method gone locals h hr
  | block => exact alike_block gone locals h hr
  | conditional => exact alike_conditional gone locals h hr
  | call => exact alike_call gone locals h hr
  | assignment => exact alike_assignment gone locals h hr
  | comment =>
      rw [convert_comment source locals hr, convert_comment source locals (hwithout.trans hr)]
      exact .refl _
  | wrapper =>
      rw [convert_wrapper source locals hr, convert_wrapper source locals (hwithout.trans hr)]
      exact hparts [] locals
  | parameterList =>
      rw [convert_parameterList source locals hr,
        convert_parameterList source locals (hwithout.trans hr), parameterListNode_without,
        declaredLocals_without]
      exact .refl _
  | identifier =>
      rw [convert_identifier source locals hr,
        convert_identifier source locals (hwithout.trans hr), text_without, resolved_without]
      exact .refl _
  | classDefinition =>
      rw [convert_classDefinition source locals hr,
        convert_classDefinition source locals (hwithout.trans hr), header_without,
        fieldText_without]
      exact .node (hparts ["name"] ∅).children rfl
  | moduleDefinition =>
      rw [convert_moduleDefinition source locals hr,
        convert_moduleDefinition source locals (hwithout.trans hr), header_without,
        fieldText_without]
      exact .node (hparts ["name"] ∅).children rfl
  | loop =>
      rw [convert_loop source locals hr, convert_loop source locals (hwithout.trans hr),
        header_without]
      exact .wrap ((alike_loopTargetAt gone locals h).andThen (hparts ["pattern"])) _
  | exceptionVariable =>
      have htargets := alike_targetsIn h gone 0 locals
      rw [convert_exceptionVariable source locals hr,
        convert_exceptionVariable source locals (hwithout.trans hr), header_without,
        children_without]
      exact htargets.wrap _
  | group =>
      have hgathered := (hparts [] locals).gathered c
      rw [convert_group source locals hr, convert_group source locals (hwithout.trans hr)]
      simp only [header_without, gathered_without]
      refine ⟨?_, (hparts [] locals).locals⟩
      rw [List.map_singleton, List.map_singleton, ← Option.getD_map Node.outline, hgathered,
        Option.getD_map]
  | gate =>
      have hgate := alike_gate source locals (hwithout.trans hr)
      rw [header_without] at hgate
      exact ((alike_gate source locals hr).trans (.node (hparts [] ∅).children rfl)).trans hgate.symm
  | plain =>
      have hplain := alike_plain source locals (hwithout.trans hr)
      rw [header_without] at hplain
      exact ((alike_plain source locals hr).trans ((hparts [] locals).wrap _)).trans hplain.symm

end Constructs

theorem indifferent (source : List UInt8) (c : Cst) : Indifferent source c := by
  induction c using Cst.induction with
  | step c ih =>
      refine ⟨fun gone locals => alike_convert gone locals ih, fun gone locals => ?_⟩
      have htargets := alike_targetsIn ih gone 0 locals
      obtain ⟨i, cs⟩ := c
      rw [without, targetsBelow, targetsBelow]
      exact htargets

/-- The simplified tree of a file without comments has the outline of the simplified
tree of the file. -/
theorem outline_simplify_without (source : List UInt8) (root : Cst) (gone : Address → Bool) :
    ((root.without gone).simplify source).outline = (root.simplify source).outline := by
  have hparts := alike_parts gone (fun d _ => indifferent source d) [] ∅ (c := root)
  rw [simplify, simplify, header_without]
  exact Node.outline_congr _ hparts.children.symm

end Cst

/-- A grammar that leaves out some of the comments. -/
def Grammar.without (grammar : Grammar) (gone : Address → Bool) : Grammar := fun source =>
  { grammar source with root := (grammar source).root.without gone }

/-- **Comments.** Leaving comments out of the concrete syntax tree of a source file
without a fault changes neither what is found in the file nor what is printed. -/
theorem Source.same_findings_without_comments (grammar : Grammar) (path : String)
    (source : List UInt8) (h : (grammar source).hasError = false) (gone : Address → Bool)
    (nested : Bool) :
    ∃ tree tree' w w',
      Source.parse grammar path source = .ok tree ∧
      Source.parse (grammar.without gone) path source = .ok tree' ∧
      Walk.run path nested tree = .ok w ∧ Walk.run path nested tree' = .ok w' ∧
      w'.issues = w.issues ∧ w'.output = w.output := by
  have h' : (grammar.without gone source).hasError = false := h
  obtain ⟨w, w', hrun, hrun', hissues, houtput⟩ := Walk.run_outline path nested
    (Cst.outline_simplify_without source (grammar source).root gone).symm
  exact ⟨_, _, w, w', parse_eq h path, parse_eq h' path, hrun, hrun', hissues.symm,
    houtput.symm⟩

/-- The source `def m(a, # one`, `b, c, d)`, `[ # none`, `]`, `end` on five lines. -/
def Source.commentedMethod : List UInt8 :=
  "def m(a, # one\n  b, c, d)\n  [ # none\n  ]\nend\n".toUTF8.toList

def Cst.commentedMethod : Cst :=
  .mk { type := "program", endByte := 45 }
    [.mk { type := "method", endByte := 44 }
      [.mk { type := "identifier", field := "name", startByte := 4, endByte := 5 } [],
       .mk { type := "method_parameters", field := "parameters", startByte := 5, endByte := 25 }
        [.mk { type := "identifier", startByte := 6, endByte := 7 } [],
         .mk { type := "comment", startByte := 9, endByte := 14 } [],
         .mk { type := "identifier", startByte := 17, endByte := 18, row := 1 } [],
         .mk { type := "identifier", startByte := 20, endByte := 21, row := 1 } [],
         .mk { type := "identifier", startByte := 23, endByte := 24, row := 1 } []],
       .mk { type := "body_statement", field := "body", startByte := 28, endByte := 40, row := 2 }
        [.mk { type := "array", startByte := 28, endByte := 40, row := 2 }
          [.mk { type := "comment", startByte := 30, endByte := 36, row := 2 } []]]]]

/-- Where the two comments are. -/
def Cst.commentsOfMethod (a : Address) : Bool := a = [0, 1, 1] || a = [0, 2, 0, 0]

/-- Without the comments the array becomes a literal; the parameter list is reported
all the same. -/
theorem Source.same_findings_without_comments_commentedMethod :
    (Grammar.constant .commentedMethod Source.commentedMethod).hasError = false ∧
    ∃ tree tree' w w',
      Source.parse (.constant .commentedMethod) "a.rb" Source.commentedMethod = .ok tree ∧
      Source.parse (Grammar.without (.constant .commentedMethod) Cst.commentsOfMethod) "a.rb"
        Source.commentedMethod = .ok tree' ∧
      tree.places.map (·.node.kind) =
        [.program, .methodDefinition, .parameterList, .other] ∧
      tree'.places.map (·.node.kind) =
        [.program, .methodDefinition, .parameterList, .literal] ∧
      Walk.run "a.rb" true tree = .ok w ∧ Walk.run "a.rb" true tree' = .ok w' ∧
      w.issues.map (fun issue => (issue.rule, issue.line)) = [("too_many_arguments", 1)] ∧
      w'.issues = w.issues ∧ w'.output = w.output := by
  obtain ⟨tree, tree', w, w', hparse, hparse', hrun, hrun', hissues, houtput⟩ :=
    same_findings_without_comments (.constant .commentedMethod) "a.rb" Source.commentedMethod
      rfl Cst.commentsOfMethod true
  obtain rfl := eq_simplify_of_parse hparse
  have hparse'' : Source.parse (.constant (Cst.commentedMethod.without Cst.commentsOfMethod))
    "a.rb" Source.commentedMethod = .ok tree' := hparse'
  obtain rfl := eq_simplify_of_parse hparse''
  obtain ⟨w₀, hrun₀, hfound, -⟩ :=
    Walk.run_findings "a.rb" true (Cst.commentedMethod.simplify Source.commentedMethod)
  obtain rfl := Except.ok.inj (hrun.symm.trans hrun₀)
  refine ⟨rfl, _, _, w, w', hparse, hparse', by decide +kernel, by decide +kernel, hrun, hrun',
    ?_, hissues, houtput⟩
  rw [hfound, Node.stops_eq]
  decide +kernel

end RubySmells
