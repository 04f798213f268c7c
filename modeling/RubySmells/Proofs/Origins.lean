import Mathlib.Data.List.Forall2
import Mathlib.Data.List.Nodup
import RubySmells.Proofs.Requests
import RubySmells.Proofs.Shape

/-!
# Where the nodes of a simplified tree come from

Each node of a simplified tree stems from a node of the concrete syntax tree, whose
line it takes over, or it is the empty parameter list of a method that was written
without one (`Node.StemsFrom`). No two nodes have the same origin
(`Cst.traced_simplify`): what a construct becomes uses up origins at and below it
only, and different parts of it lie below different children.

So a simplified tree has no more nodes than the concrete syntax tree, but for those
parameter lists (`Source.nothing_duplicated`).
-/

namespace RubySmells

/-! ## Origins -/

/-- What a node of a simplified tree stems from. -/
inductive Origin
  /-- A node of the concrete syntax tree. -/
  | made (c : Cst)
  /-- A method written without parameters, whose parameter list is added. -/
  | added (method : Cst)

namespace Cst

/-- Whether the node is a method without a node for its parameters. -/
def lacksParameters (c : Cst) : Bool :=
  c.role = .methodDefinition && (c.child? "parameters").isNone

/-- What can stem from the node itself. -/
def ownOrigins (c : Cst) : List Origin :=
  .made c :: if c.lacksParameters then [.added c] else []

/-- What can stem from the node and from the nodes below it. -/
def origins (c : Cst) : List Origin := c.preorder.flatMap ownOrigins

theorem origins_eq (c : Cst) : c.origins = c.ownOrigins ++ c.children.flatMap origins := by
  rw [origins, preorder_eq, List.flatMap_cons, List.flatMap_assoc]
  rfl

end Cst

/-- Whether a node stems from an origin. It is on the line of the grammar node that it
stands for; an assignment stands for the bare word that is assigned to, any other
node for the construct of its type. -/
def Node.StemsFrom (source : List UInt8) (n : Node) : Origin → Prop
  | .made c =>
    n.line = c.line ∧
      (n.nodeType = c.type ∨
        n.kind = .localAssignment ∧ c.role = .identifier ∧ n.name = some (c.text source))
  | .added method => method.lacksParameters = true ∧ n = method.emptyParameterList

/-! ## Tracing nodes to origins -/

/-- The nodes of a tree, parents first. -/
def Node.preorder (n : Node) : List Node := n.places.map (·.node)

theorem Node.preorder_eq (n : Node) : n.preorder = n :: n.nodes.flatMap Node.preorder := by
  rw [Node.preorder, Node.places_eq, List.map_cons, Node.map_node_placesFrom]
  rfl

theorem Node.length_preorder (n : Node) : n.preorder.length = n.mass := by
  rw [Node.preorder, List.length_map, Node.length_places]

/-- The nodes, and the nodes below them, stem from different ones of some origins. -/
def Traced (source : List UInt8) (os : List Origin) (ns : List Node) : Prop :=
  ∃ used, List.Forall₂ (Node.StemsFrom source) (ns.flatMap Node.preorder) used ∧
    used.Subperm os

namespace Traced

variable {source : List UInt8} {os os' : List Origin} {ns ns' : List Node}

theorem nil (source : List UInt8) (os : List Origin) : Traced source os [] :=
  ⟨[], .nil, List.nil_subperm⟩

theorem mono (h : Traced source os ns) (hsub : os.Subperm os') : Traced source os' ns := by
  obtain ⟨used, hstems, hused⟩ := h
  exact ⟨used, hstems, hused.trans hsub⟩

theorem append (h : Traced source os ns) (h' : Traced source os' ns') :
    Traced source (os ++ os') (ns ++ ns') := by
  obtain ⟨used, hstems, hused⟩ := h
  obtain ⟨used', hstems', hused'⟩ := h'
  refine ⟨used ++ used', ?_, hused.append hused'⟩
  rw [List.flatMap_append]
  exact List.rel_append hstems hstems'

/-- A node with an origin of its own, over nodes that are traced. -/
theorem node {n : Node} {o : Origin} (hn : n.StemsFrom source o) (hnodes : n.nodes = ns)
    (h : Traced source os ns) : Traced source (o :: os) [n] := by
  obtain ⟨used, hstems, hused⟩ := h
  refine ⟨o :: used, ?_, (List.subperm_cons o).2 hused⟩
  rw [List.flatMap_singleton, Node.preorder_eq, hnodes]
  exact .cons hn hstems

end Traced

namespace Cst

variable {source : List UInt8}

theorem made_subperm (c : Cst) : [Origin.made c].Subperm c.origins := by
  rw [origins_eq, ownOrigins]
  exact (List.subperm_cons _).2 List.nil_subperm

theorem below_subperm (c : Cst) : (c.children.flatMap origins).Subperm c.origins := by
  rw [origins_eq]
  exact (List.sublist_append_right _ _).subperm

theorem made_below_subperm (c : Cst) :
    (Origin.made c :: c.children.flatMap origins).Subperm c.origins := by
  rw [origins_eq, ownOrigins]
  exact (List.subperm_cons _).2 (List.sublist_append_right _ _).subperm

/-- A node that stands for a construct, over parts that lie below it. -/
theorem traced_over {c : Cst} {kind : Kind} {name : Option String} {cs : List Child}
    {ns : List Node} (hcs : cs.filterMap Child.node? = ns)
    (h : Traced source (c.children.flatMap origins) ns) :
    Traced source c.origins [.mk (c.header kind name) cs] := by
  have hstems : Node.StemsFrom source (.mk (c.header kind name) cs) (.made c) :=
    ⟨rfl, .inl rfl⟩
  exact (Traced.node hstems hcs h).mono c.made_below_subperm

/-- What has to fit into one place goes below one node only if it is more than one. -/
theorem traced_gathered {c : Cst} {ns : List Node}
    (h : Traced source (c.children.flatMap origins) ns) :
    Traced source c.origins (c.gathered ns).toList := by
  match ns with
  | [] => exact .nil source _
  | [n] => exact h.mono c.below_subperm
  | n :: n' :: ns => exact traced_over (Child.filterMap_map_node _) h

theorem traced_parameterListNode (d : Cst) :
    Traced source d.origins [d.parameterListNode source] :=
  traced_over (Child.filterMap_map_text _) (.nil source _)

theorem traced_assigned (d : Cst) (locals : NameSet) :
    Traced source d.origins (assigned source d locals).1 :=
  traced_over rfl (.nil source _)

/-! ## Tracing each construct -/

/-- Whatever a grammar node becomes, where it is simplified, where it fills one place and
where it is taken apart as a target, is traced to origins at and below it. -/
structure Traceable (source : List UInt8) (c : Cst) : Prop where
  convert : ∀ locals, Traced source c.origins (convert source c locals).1
  gathered : ∀ locals, Traced source c.origins (c.gathered (Cst.convert source c locals).1).toList
  targets : ∀ locals, Traced source c.origins (targetsBelow source c locals).1

section Below

variable {cs : List Cst} (h : ∀ d ∈ cs, Traceable source d)

include h

theorem traced_eachIn (fields : List String) (locals : NameSet) :
    Traced source (((dropFields fields cs).filter named).flatMap origins)
      (eachIn source fields cs locals).1 := by
  induction cs generalizing fields locals with
  | nil => exact .nil source _
  | cons c cs ih =>
      have ih := ih fun d hd => h d (List.mem_cons_of_mem _ hd)
      rw [dropFields_cons, eachIn]
      cases fields.find? (fun f => c.fills f) with
      | some f => exact ih (fields.erase f) locals
      | none =>
          simp only [List.filter_cons]
          cases c.named with
          | false => exact ih fields locals
          | true => exact ((h c List.mem_cons_self).convert locals).append (ih fields _)

theorem traced_targetsIn (locals : NameSet) :
    Traced source (cs.flatMap origins) (targetsIn source cs locals).1 := by
  induction cs generalizing locals with
  | nil => exact .nil source _
  | cons c cs ih =>
      have ih := ih fun d hd => h d (List.mem_cons_of_mem _ hd)
      have hc := h c List.mem_cons_self
      rw [targetsIn]
      refine .append ?_ (ih _)
      split
      · exact .nil source _
      · split
        · exact traced_assigned c locals
        · split
          · exact hc.targets locals
          · exact hc.convert locals

end Below

section Constructs

variable {c : Cst} (h : ∀ d ∈ c.children, Traceable source d) (locals : NameSet)

/-- Parts from some of the fields and the other children are parts from below the
node. -/
theorem traced_parts {fields : List String} {ns ms : List Node} (hfields : fields.Nodup)
    (hns : Traced source ((fields.filterMap c.child?).flatMap origins) ns)
    (hms : Traced source ((c.others fields).flatMap origins) ms) :
    Traced source (c.children.flatMap origins) (ns ++ ms) := by
  have hsub := subperm_flatMap (subperm_fields_others hfields c) origins
  rw [List.flatMap_append] at hsub
  exact (hns.append hms).mono hsub

/-- What comes of the node in one of the fields is traced to the fields. -/
theorem traced_field {field : String} {fields : List String} {ns : List Node}
    (hf : field ∈ fields)
    (hns : Traced source ((c.child? field).toList.flatMap origins) ns) :
    Traced source ((fields.filterMap c.child?).flatMap origins) ns :=
  hns.mono (subperm_flatMap (child?_sublist hf).subperm origins)

include h

theorem traced_others (fields : List String) :
    Traced source ((c.others fields).flatMap origins) (eachIn source fields c.children locals).1 :=
  traced_eachIn h fields locals

theorem traced_named :
    Traced source (c.children.flatMap origins) (eachIn source [] c.children locals).1 :=
  traced_parts List.nodup_nil (.nil source _) (traced_others h locals [])

theorem traced_filling (field : String) :
    Traced source ((c.child? field).toList.flatMap origins)
      (c.filling source field locals).toList := by
  rw [filling]
  cases hd : c.child? field with
  | none => exact .nil source _
  | some d =>
      rw [Option.toList_some, List.flatMap_singleton]
      exact (h d (List.mem_of_find?_eq_some hd)).gathered locals

theorem traced_owner :
    Traced source ((c.child? "object").toList.flatMap origins) (c.owner source locals) := by
  rw [owner]
  cases hd : c.child? "object" with
  | none => exact .nil source _
  | some d =>
      rw [Option.toList_some, List.flatMap_singleton]
      exact (h d (List.mem_of_find?_eq_some hd)).convert locals

theorem traced_targetsAt (field : String) :
    Traced source ((c.child? field).toList.flatMap origins)
      (targetsAt source field c.children locals).1 := by
  rw [targetsAt_eq, child?]
  cases hd : c.children.find? (fills field) with
  | none => exact .nil source _
  | some d =>
      rw [Option.toList_some, List.flatMap_singleton]
      exact (h d (List.mem_of_find?_eq_some hd)).targets locals

theorem traced_loopTargetAt :
    Traced source ((c.child? "pattern").toList.flatMap origins)
      (loopTargetAt source c.children locals).1 := by
  rw [loopTargetAt_eq, child?]
  cases hd : c.children.find? (fills "pattern") with
  | none => exact .nil source _
  | some d =>
      rw [Option.toList_some, List.flatMap_singleton]
      simp only
      split
      · exact traced_assigned d locals
      · exact (h d (List.mem_of_find?_eq_some hd)).targets locals

omit h in
/-- The nodes of a method: its owner, its parameters and its body. -/
theorem filterMap_method (owner body : List Node) (parameters : Node) :
    (owner.map Child.node ++ Child.node parameters :: body.map Child.node).filterMap
      Child.node? = owner ++ parameters :: body := by
  rw [List.filterMap_append, Child.filterMap_map_node]
  exact congrArg (owner ++ parameters :: ·) (Child.filterMap_map_node body)

theorem traced_method_of_some {d : Cst} (hr : c.role = .methodDefinition)
    (hd : c.child? "parameters" = some d) :
    Traced source c.origins (convert source c locals).1 := by
  have hfields : ["object", "name", "parameters"].Nodup := by decide
  have hparameters : Traced source ((c.child? "parameters").toList.flatMap origins)
      [d.parameterListNode source] := by
    rw [hd, Option.toList_some, List.flatMap_singleton]
    exact traced_parameterListNode d
  have htwo : ((c.child? "object").toList ++ (c.child? "parameters").toList).Sublist
      (["object", "name", "parameters"].filterMap c.child?) := by
    rw [List.filterMap_cons, List.filterMap_cons]
    cases c.child? "object" <;> cases c.child? "name" <;> simp [hd]
  have hhead := (traced_owner h locals).append hparameters
  rw [← List.flatMap_append] at hhead
  have hparts := traced_parts hfields (hhead.mono (subperm_flatMap htwo.subperm _))
    (traced_others h (c.ownLocals source) ["object", "name", "parameters"])
  rw [List.append_assoc] at hparts
  rw [convert_method source hr, ownParameters, hd]
  exact traced_over (filterMap_method _ _ _) hparts

/-- The parameter list that is added to a method is the only node with no grammar node
to stand for. -/
theorem traced_method_of_none (hr : c.role = .methodDefinition)
    (hd : c.child? "parameters" = none) :
    Traced source c.origins (convert source c locals).1 := by
  have hfields : ["object", "name", "parameters"].Nodup := by decide
  have hlacks : c.lacksParameters = true := by simp [lacksParameters, hr, hd]
  have hadded : Traced source [.added c] [c.emptyParameterList] := by
    have hstems : c.emptyParameterList.StemsFrom source (.added c) := ⟨hlacks, rfl⟩
    exact .node hstems rfl (.nil source [])
  have howner : Traced source
      ((["object", "name", "parameters"].filterMap c.child?).flatMap origins)
      (c.owner source locals) := traced_field (by decide) (traced_owner h locals)
  have hparts := howner.append (hadded.append
    (traced_others h (c.ownLocals source) ["object", "name", "parameters"]))
  have hbelow := subperm_flatMap (subperm_fields_others hfields c) origins
  rw [List.flatMap_append] at hbelow
  have hparts := hparts.mono
    (List.perm_middle.subperm.trans ((List.subperm_cons (.added c)).2 hbelow))
  rw [convert_method source hr, ownParameters, hd, origins_eq, ownOrigins, if_pos hlacks]
  have hstems : ∀ cs, Node.StemsFrom source
      (.mk (c.header .methodDefinition (some (c.fieldText source "name"))) cs) (.made c) :=
    fun _ => ⟨rfl, .inl rfl⟩
  exact .node (hstems _) (filterMap_method _ _ _) hparts

theorem traced_block (hr : c.role = .block) :
    Traced source c.origins (convert source c locals).1 := by
  have hparameters : Traced source ((c.child? "parameters").toList.flatMap origins)
      (c.blockParameters source locals).1 := by
    rw [blockParameters]
    cases c.child? "parameters" with
    | none => exact .nil source _
    | some d =>
        rw [Option.toList_some, List.flatMap_singleton]
        exact traced_parameterListNode d
  rw [convert_block source locals hr]
  refine traced_over (Child.filterMap_map_node _) ?_
  exact traced_parts (by decide) (traced_field List.mem_cons_self hparameters)
    (traced_others h _ ["parameters"])

theorem traced_assignment (hr : c.role = .assignment) :
    Traced source c.origins (convert source c locals).1 := by
  have hwhole : Traced source c.origins
      (Made.wrap (eachIn source [] c.children locals) (c.header .other none)).1 :=
    traced_over (Child.filterMap_map_node _) (traced_named h locals)
  cases hleft : c.child? "left" with
  | none =>
      rw [convert_assignment_of_none source locals hr hleft]
      exact hwhole
  | some left =>
      rw [convert_assignment_of_some source locals hr hleft]
      split
      · -- The node stands for the bare word, which is not among the other children.
        rename_i hword
        have hvalues := traced_others h (locals.insertAll [left.text source]) ["left"]
        have hstems : ∀ cs, Node.StemsFrom source
            (.mk ⟨.localAssignment, some (left.text source), c.type, left.line⟩ cs)
            (.made left) := fun _ => ⟨rfl, .inr ⟨rfl, hword, rfl⟩⟩
        have hnode := Traced.node (hstems (.text (left.text source) :: _))
          (Child.filterMap_map_node _) hvalues
        have hfield : ["left"].filterMap c.child? = [left] := by simp [hleft]
        have hfields : ["left"].Nodup := by decide
        have hbelow := subperm_flatMap (subperm_fields_others hfields c) origins
        rw [hfield, List.flatMap_append, List.flatMap_singleton] at hbelow
        exact hnode.mono (((left.made_subperm.append (List.Subperm.refl _)).trans hbelow).trans
          c.below_subperm)
      · split
        · refine traced_over (Child.filterMap_map_node _) ?_
          exact traced_parts (by decide)
            (traced_field List.mem_cons_self (traced_targetsAt h locals "left"))
            (traced_others h _ ["left"])
        · exact hwhole

theorem traced_convert : Traced source c.origins (convert source c locals).1 := by
  have hnamed := traced_named h
  have hnamed' := traced_others h ∅ ["name"]
  cases hr : c.role with
  | methodDefinition =>
      cases hd : c.child? "parameters" with
      | none => exact traced_method_of_none h locals hr hd
      | some d => exact traced_method_of_some h locals hr hd
  | block => exact traced_block h locals hr
  | assignment => exact traced_assignment h locals hr
  | comment =>
      rw [convert_comment source locals hr]
      exact .nil source _
  | wrapper =>
      rw [convert_wrapper source locals hr]
      exact (hnamed locals).mono c.below_subperm
  | parameterList =>
      rw [convert_parameterList source locals hr]
      exact traced_parameterListNode c
  | identifier =>
      rw [convert_identifier source locals hr, resolved]
      split
      · exact traced_over rfl (.nil source _)
      · exact traced_over rfl (.nil source _)
  | classDefinition =>
      rw [convert_classDefinition source locals hr]
      exact traced_over (Child.filterMap_map_node _)
        (traced_parts (by decide) (.nil source _) hnamed')
  | moduleDefinition =>
      rw [convert_moduleDefinition source locals hr]
      exact traced_over (Child.filterMap_map_node _)
        (traced_parts (by decide) (.nil source _) hnamed')
  | conditional =>
      rw [convert_conditional source hr]
      refine traced_over (Node.nodes_place (c.header .conditional none) _ _) ?_
      exact traced_parts (by decide)
        (traced_field List.mem_cons_self (traced_filling h locals "condition"))
        (traced_others h _ ["condition"])
  | call =>
      rw [convert_call source hr]
      refine traced_over (Node.nodes_place_text (c.header .call none) _ _ _) ?_
      exact traced_parts (by decide)
        (traced_field List.mem_cons_self (traced_filling h locals "receiver"))
        (traced_others h _ ["receiver", "method"])
  | loop =>
      rw [convert_loop source locals hr]
      refine traced_over (Child.filterMap_map_node _) ?_
      exact traced_parts (by decide)
        (traced_field List.mem_cons_self (traced_loopTargetAt h locals))
        (traced_others h _ ["pattern"])
  | exceptionVariable =>
      rw [convert_exceptionVariable source locals hr]
      exact traced_over (Child.filterMap_map_node _) (traced_targetsIn h locals)
  | group =>
      have hgathered := traced_gathered (hnamed locals)
      have hempty : Traced source c.origins [.mk (c.header .other none) []] :=
        traced_over rfl (.nil source _)
      rw [convert_group source locals hr]
      show Traced source c.origins [(c.gathered (eachIn source [] c.children locals).1).getD _]
      cases hg : c.gathered (eachIn source [] c.children locals).1 with
      | none => exact hempty
      | some n =>
          rw [hg] at hgathered
          exact hgathered
  | gate =>
      rw [convert_gate source locals hr]
      simp only
      split
      · exact traced_over rfl (.nil source _)
      · exact traced_over (Child.filterMap_map_node _) (hnamed ∅)
  | plain =>
      rw [convert_plain source locals hr]
      split
      · exact traced_over rfl (.nil source _)
      · exact traced_over (Child.filterMap_map_node _) (hnamed locals)

/-- Only a wrapper becomes several nodes, and it stands for none of them itself. -/
theorem traced_gathered_convert :
    Traced source c.origins (c.gathered (convert source c locals).1).toList := by
  by_cases hcomment : c.role = .comment
  · rw [convert_comment source locals hcomment]
    exact .nil source _
  · by_cases hwrapper : c.role = .wrapper
    · rw [convert_wrapper source locals hwrapper]
      exact traced_gathered (traced_named h locals)
    · have hconvert := traced_convert h locals
      obtain ⟨n, hn⟩ := exists_convert_singleton source locals hcomment hwrapper
      rw [hn] at hconvert ⊢
      exact hconvert

end Constructs

theorem traceable (source : List UInt8) (c : Cst) : Traceable source c := by
  induction c using Cst.induction with
  | step c ih =>
      refine ⟨traced_convert ih, traced_gathered_convert ih, fun locals => ?_⟩
      have htargets := (traced_targetsIn ih locals).mono c.below_subperm
      obtain ⟨i, cs⟩ := c
      rw [targetsBelow]
      exact htargets

/-- The nodes of a simplified tree have different origins. -/
theorem traced_simplify (source : List UInt8) (root : Cst) :
    Traced source root.origins [root.simplify source] :=
  traced_over (Child.filterMap_map_node _) (traced_named (fun d _ => traceable source d) ∅)

/-! ## Counting -/

theorem length_preorder (c : Cst) : c.preorder.length = c.size := by
  induction c using Cst.induction with
  | step c ih =>
      have htotal : ∀ cs : List Cst, (∀ d ∈ cs, d.preorder.length = d.size) →
          (cs.flatMap preorder).length = sizeAll cs := by
        intro cs hcs
        induction cs with
        | nil => rfl
        | cons d cs ihcs =>
            rw [List.flatMap_cons, List.length_append, sizeAll_cons, hcs d List.mem_cons_self,
              ihcs fun e he => hcs e (List.mem_cons_of_mem _ he)]
      rw [preorder_eq, List.length_cons, htotal c.children ih, size_eq, Nat.add_comm]

theorem length_origins (c : Cst) :
    c.origins.length = c.size + (c.preorder.filter lacksParameters).length := by
  have hlist : ∀ cs : List Cst, (cs.flatMap ownOrigins).length =
      cs.length + (cs.filter lacksParameters).length := by
    intro cs
    induction cs with
    | nil => rfl
    | cons d cs ih =>
        rw [List.flatMap_cons, List.length_append, ih, ownOrigins, List.filter_cons]
        cases d.lacksParameters with
        | true =>
            simp only [if_true, List.length_cons, List.length_nil]
            omega
        | false =>
            simp only [Bool.false_eq_true, if_false, List.length_cons, List.length_nil]
            omega
  rw [origins, hlist, length_preorder]

theorem eq_of_mem_ownOrigins {c : Cst} {o : Origin} (h : o ∈ c.ownOrigins) :
    o = .made c ∨ o = .added c := by
  rw [ownOrigins] at h
  split at h
  · simpa using h
  · exact .inl (by simpa using h)

/-- Different grammar nodes are different origins. -/
theorem nodup_origins {root : Cst} (h : root.preorder.Nodup) : root.origins.Nodup := by
  refine List.nodup_flatMap.2 ⟨fun c _ => ?_, h.imp fun hne o hc hd => hne ?_⟩
  · rw [ownOrigins]
    split <;> simp
  · rcases eq_of_mem_ownOrigins hc with rfl | rfl <;>
      rcases eq_of_mem_ownOrigins hd with heq | heq <;> simp_all

end Cst

theorem nodup_of_subperm {α : Type} {xs ys : List α} (h : xs.Subperm ys) (hys : ys.Nodup) :
    xs.Nodup := by
  obtain ⟨zs, hperm, hsub⟩ := h
  exact hperm.nodup_iff.1 (hys.sublist hsub)

/-- **Nothing twice.** On the way from the concrete syntax tree of a source file without
a fault to the simplified tree, the machine is asked to convert every grammar node once
at most, and the nodes of the simplified tree have different origins: a grammar node on
the same line, or a method written without parameters. With numbers of their own, grammar
nodes are told apart, so none of them is converted twice and none is the origin of two
nodes. The simplified tree has at most as many nodes as there are such origins. -/
theorem Source.nothing_duplicated {grammar : Grammar} {source : List UInt8} {root : Cst}
    (h : grammar source = { root := root }) (path : String) :
    ∃ tree origins,
      Source.parse grammar path source = .ok tree ∧
      (root :: Machine.requests source ⟨root.programSteps, [], [], []⟩).Subperm root.preorder ∧
      List.Forall₂ (Node.StemsFrom source) tree.preorder origins ∧
      origins.Subperm root.origins ∧
      tree.mass ≤ root.size + (root.preorder.filter Cst.lacksParameters).length ∧
      ((root.preorder.map (·.info.id)).Nodup →
        (root :: Machine.requests source ⟨root.programSteps, [], [], []⟩).Nodup ∧
          origins.Nodup) := by
  have hparse : Source.parse grammar path source = .ok (root.simplify source) := by
    have hsimplify := parse_eq (congrArg Parsed.hasError h) path
    rwa [h] at hsimplify
  have hrequests := Cst.requests_subperm source root
  obtain ⟨origins, hstems, horigins⟩ := Cst.traced_simplify source root
  rw [List.flatMap_singleton] at hstems
  refine ⟨_, origins, hparse, hrequests, hstems, horigins, ?_, fun hids => ?_⟩
  · rw [← Node.length_preorder, hstems.length_eq, ← Cst.length_origins]
    exact horigins.length_le
  · have hnodes : root.preorder.Nodup := .of_map _ hids
    exact ⟨nodup_of_subperm hrequests hnodes,
      nodup_of_subperm horigins (Cst.nodup_origins hnodes)⟩

/-- The source `def self.m`, `x = 1 if (a; b)`, `end` on three lines. -/
def Source.bareMethod : List UInt8 := "def self.m\n  x = 1 if (a; b)\nend\n".toUTF8.toList

def Cst.bareMethod : Cst :=
  .mk { id := 0, type := "program", endByte := 33 }
    [.mk { id := 1, type := "singleton_method", endByte := 32 }
      [.mk { id := 2, type := "self", field := "object", startByte := 4, endByte := 8 } [],
       .mk { id := 3, type := "identifier", field := "name", startByte := 9, endByte := 10 } [],
       .mk { id := 4, type := "body_statement", field := "body", startByte := 13, endByte := 28,
             row := 1 }
        [.mk { id := 5, type := "if_modifier", startByte := 13, endByte := 28, row := 1 }
          [.mk { id := 6, type := "assignment", field := "body", startByte := 13, endByte := 18,
                 row := 1 }
            [.mk { id := 7, type := "identifier", field := "left", startByte := 13, endByte := 14,
                   row := 1 } [],
             .mk { id := 8, type := "integer", field := "right", startByte := 17, endByte := 18,
                   row := 1 } []],
           .mk { id := 9, type := "parenthesized_statements", field := "condition",
                 startByte := 22, endByte := 28, row := 1 }
            [.mk { id := 10, type := "identifier", startByte := 23, endByte := 24, row := 1 } [],
             .mk { id := 11, type := "identifier", startByte := 26, endByte := 27, row := 1 } []]]]]]

/-- Of twelve grammar nodes three give rise to no node, and a parameter list is added:
ten nodes. -/
theorem Source.nothing_duplicated_bareMethod :
    Grammar.constant .bareMethod Source.bareMethod = { root := .bareMethod } ∧
    (Cst.bareMethod.preorder.map (·.info.id)).Nodup ∧
    ∃ tree origins,
      Source.parse (.constant .bareMethod) "a.rb" Source.bareMethod = .ok tree ∧
      (Cst.bareMethod :: Machine.requests Source.bareMethod
        ⟨Cst.bareMethod.programSteps, [], [], []⟩).Nodup ∧
      List.Forall₂ (Node.StemsFrom Source.bareMethod) tree.preorder origins ∧
      origins.Subperm Cst.bareMethod.origins ∧ origins.Nodup ∧
      tree.mass = 10 ∧ Cst.bareMethod.size = 12 ∧
      (Cst.bareMethod.preorder.filter Cst.lacksParameters).length = 1 := by
  have hgrammar : Grammar.constant .bareMethod Source.bareMethod = { root := .bareMethod } := rfl
  have hids : (Cst.bareMethod.preorder.map (·.info.id)).Nodup := by decide +kernel
  obtain ⟨tree, origins, hparse, -, hstems, horigins, -, honce⟩ :=
    nothing_duplicated hgrammar "a.rb"
  obtain rfl := eq_simplify_of_parse hparse
  exact ⟨hgrammar, hids, _, origins, hparse, (honce hids).1, hstems, horigins,
    (honce hids).2, by decide +kernel, by decide +kernel, by decide +kernel⟩

end RubySmells
