import Mathlib.Data.List.Flatten
import Mathlib.Data.List.Perm.Subperm
import RubySmells.Proofs.Constructs

/-!
# No grammar node is converted twice

`Machine.requests` records the grammar nodes that the machine is asked to convert,
in order. A plan asks for each of its children once at most: first for those in some
fields, then for the others (`Cst.perm_fields`). So, counting the root, every node
of a concrete syntax tree is asked for once at most (`Cst.requests_subperm`).
-/

namespace RubySmells

/-! ## Requests of the machine -/

/-- The grammar node that a step asks for. -/
def Step.request? : Step → Option Cst
  | .convert c => some c
  | .slot c => some c
  | _ => none

/-- The grammar nodes that the machine is asked to convert until every plan has
ended. -/
def Machine.requests (source : List UInt8) (m : Machine) : List Cst :=
  match _h : m.advance source with
  | .ok (.more next) => (m.steps.head?.bind Step.request?).toList ++ requests source next
  | _ => []
  termination_by m.work
  decreasing_by exact work_advance (by assumption)

/-! ## Requests by recursion -/

mutual

/-- The grammar nodes that are converted when a step is taken. -/
def Step.converted (source : List UInt8) (s : Step) : List Cst :=
  match s with
  | .convert c => c.converted source
  | .slot c => c.converted source
  | _ => []
  termination_by 3 * s.work + 1
  decreasing_by
    · simp only [Step.work]
      omega
    · simp only [Step.work]
      omega

/-- The grammar nodes that are converted when several steps are taken. -/
def Step.convertedAll (source : List UInt8) (steps : List Step) : List Cst :=
  match steps with
  | [] => []
  | s :: rest => s.converted source ++ Step.convertedAll source rest
  termination_by 3 * Step.workAll steps + 2
  decreasing_by
    · simp only [Step.workAll_cons]
      omega
    · have := s.work_pos
      simp only [Step.workAll_cons]
      omega

/-- The grammar nodes that are converted when one is: the node, and those that its
plan asks for. -/
def Cst.converted (source : List UInt8) (c : Cst) : List Cst :=
  c :: Step.convertedAll source (c.plan source).steps
  termination_by 3 * c.work
  decreasing_by
    have := c.work_plan source
    omega

end

namespace Step

variable (source : List UInt8)

theorem convertedAll_nil : convertedAll source [] = [] := by
  rw [convertedAll]

theorem convertedAll_cons (s : Step) (rest : List Step) :
    convertedAll source (s :: rest) = s.converted source ++ convertedAll source rest := by
  rw [convertedAll]

theorem convertedAll_append (xs ys : List Step) :
    convertedAll source (xs ++ ys) = convertedAll source xs ++ convertedAll source ys := by
  induction xs with
  | nil => rw [List.nil_append, convertedAll_nil, List.nil_append]
  | cons s xs ih =>
      rw [List.cons_append, convertedAll_cons, convertedAll_cons, ih, List.append_assoc]

/-- A step converts the node that it asks for, and what that node's plan asks for. -/
theorem converted_eq (s : Step) :
    s.converted source = s.request?.toList.flatMap (Cst.converted source) := by
  cases s <;> simp [converted, request?]

end Step

/-! ## The machine asks for what the recursion converts -/

namespace Machine

/-- A step of a plan either leaves the plan for that of the node it asks for, or goes on
with the plan. -/
theorem advance_cons {source : List UInt8} {s : Step} {rest : List Step} {made : List Child}
    {waiting : List Waiting} {scopes : Scopes} {p : Progress}
    (h : advance source ⟨s :: rest, made, waiting, scopes⟩ = .ok p) :
    ∃ next, p = .more next ∧
      (s.request? = none ∧ next.steps = rest ∧ next.waiting = waiting ∨
        ∃ c w, s.request? = some c ∧ next.steps = (c.plan source).steps ∧
          next.waiting = w :: waiting ∧ w.steps = rest) := by
  cases s with
  | declare names =>
      cases hd : Scopes.declare names scopes with
      | error fault => simp [advance, hd, bind, Except.bind] at h
      | ok scopes' =>
          simp only [advance, hd] at h
          exact ⟨_, (Except.ok.inj h).symm, .inl ⟨rfl, rfl, rfl⟩⟩
  | closeScope =>
      cases hd : Scopes.pop scopes with
      | error fault => simp [advance, hd, bind, Except.bind] at h
      | ok scopes' =>
          simp only [advance, hd] at h
          exact ⟨_, (Except.ok.inj h).symm, .inl ⟨rfl, rfl, rfl⟩⟩
  | emit child | resolve word | openScope inherits =>
      exact ⟨_, (Except.ok.inj h).symm, .inl ⟨rfl, rfl, rfl⟩⟩
  | convert c | slot c =>
      exact ⟨_, (Except.ok.inj h).symm, .inr ⟨c, _, rfl, rfl, rfl, rfl⟩⟩

/-- What is still to be converted: for the current plan, then for those that wait. -/
def ahead (source : List UInt8) (m : Machine) : List Cst :=
  Step.convertedAll source m.steps ++
    m.waiting.flatMap fun w => Step.convertedAll source w.steps

/-- A step takes what it asks for from what is still to be converted. -/
theorem ahead_advance {source : List UInt8} {m next : Machine}
    (h : m.advance source = .ok (.more next)) :
    m.ahead source = (m.steps.head?.bind Step.request?).toList ++ next.ahead source := by
  obtain ⟨steps, made, waiting, scopes⟩ := m
  cases steps with
  | nil =>
      cases waiting with
      | nil => simp [advance] at h
      | cons w ws =>
          simp only [advance, Except.ok.injEq, Progress.more.injEq] at h
          subst h
          simp [ahead, Step.convertedAll_nil]
  | cons s rest =>
      obtain ⟨next', heq, hstep⟩ := advance_cons h
      obtain rfl : next = next' := by simpa using heq
      simp only [ahead, List.head?_cons, Option.bind_some]
      rw [Step.convertedAll_cons, Step.converted_eq]
      rcases hstep with ⟨hnone, hsteps, hwaiting⟩ | ⟨c, w, hsome, hsteps, hwaiting, hrest⟩
      · rw [hnone, hsteps, hwaiting]
        rfl
      · rw [hsome, hsteps, hwaiting, List.flatMap_cons, hrest, Option.toList_some,
          List.flatMap_singleton, Cst.converted, List.cons_append, List.cons_append,
          List.singleton_append, List.append_assoc]

theorem ahead_of_done {source : List UInt8} {m : Machine} {made : List Child}
    {scopes : Scopes} (h : m.advance source = .ok (.done made scopes)) : m.ahead source = [] := by
  obtain ⟨steps, made', waiting, scopes'⟩ := m
  cases steps with
  | nil =>
      cases waiting with
      | nil => simp [ahead, Step.convertedAll_nil]
      | cons w ws => simp [advance] at h
  | cons s rest =>
      obtain ⟨next, hmore, -⟩ := advance_cons h
      exact absurd hmore (by simp)

theorem requests_of_more {source : List UInt8} {m next : Machine}
    (h : m.advance source = .ok (.more next)) :
    m.requests source =
      (m.steps.head?.bind Step.request?).toList ++ next.requests source := by
  rw [requests]
  split
  · rename_i next' h'
    obtain rfl : next = next' := by simpa using h.symm.trans h'
    rfl
  · rename_i hnever
    exact absurd h (hnever next)

theorem requests_of_done {source : List UInt8} {m : Machine} {made : List Child}
    {scopes : Scopes} (h : m.advance source = .ok (.done made scopes)) :
    m.requests source = [] := by
  rw [requests]
  split
  · rename_i next h'
    exact absurd (h.symm.trans h') (by simp)
  · rfl

/-- Until it is done, the machine asks for all that was still to be converted. -/
theorem requests_eq {source : List UInt8} {m : Machine} {p : List Child × Scopes}
    (h : m.run source = .ok p) : m.requests source = m.ahead source := by
  fun_induction run source m with
  | case1 m fault hadvance => exact absurd h (by simp)
  | case2 m made scopes hadvance => rw [requests_of_done hadvance, ahead_of_done hadvance]
  | case3 m next hadvance ih =>
      rw [requests_of_more hadvance, ahead_advance hadvance, ih h]

end Machine

/-! ## The children of a node, field by field -/

namespace Cst

theorem perm_find?_eraseP (p : Cst → Bool) (cs : List Cst) :
    ((cs.find? p).toList ++ cs.eraseP p).Perm cs := by
  induction cs with
  | nil => exact .refl _
  | cons c cs ih =>
      rw [List.find?_cons, List.eraseP_cons]
      cases p c with
      | true => exact .refl _
      | false => exact List.perm_middle.trans (ih.cons c)

theorem find?_eraseP_of_ne {f g : String} (hfg : f ≠ g) (cs : List Cst) :
    (cs.eraseP (fills f)).find? (fills g) = cs.find? (fills g) := by
  induction cs with
  | nil => rfl
  | cons c cs ih =>
      rw [List.eraseP_cons]
      cases hf : c.fills f with
      | true =>
          have hg : ¬ c.fills g = true := fun hg => hfg (eq_of_fills hf hg)
          rw [cond_true, List.find?_cons_of_neg hg]
      | false =>
          rw [cond_false, List.find?_cons, List.find?_cons, ih]

/-- The first nodes that fill some fields, and the nodes left without them, are all
the nodes. -/
theorem perm_fields {fields : List String} (h : fields.Nodup) (cs : List Cst) :
    (fields.filterMap (fun f => cs.find? (fills f)) ++ dropFields fields cs).Perm cs := by
  induction fields generalizing cs with
  | nil => exact .refl _
  | cons f fields ih =>
      obtain ⟨hf, hfields⟩ := List.nodup_cons.1 h
      have hlater : fields.filterMap (fun g => cs.find? (fills g)) =
          fields.filterMap fun g => (cs.eraseP (fills f)).find? (fills g) := by
        refine List.filterMap_congr fun g hg => ?_
        rw [find?_eraseP_of_ne fun hfg : f = g => hf (hfg ▸ hg)]
      have hfirst : (f :: fields).filterMap (fun g => cs.find? (fills g)) =
          (cs.find? (fills f)).toList ++ fields.filterMap fun g => cs.find? (fills g) := by
        rw [List.filterMap_cons]
        cases cs.find? (fills f) <;> rfl
      rw [hfirst, hlater, List.append_assoc]
      exact ((ih hfields (cs.eraseP (fills f))).append_left _).trans
        (perm_find?_eraseP (fills f) cs)

/-- What is in some fields of a node, and its other children, are different
children. -/
theorem subperm_fields_others {fields : List String} (h : fields.Nodup) (c : Cst) :
    (fields.filterMap c.child? ++ c.others fields).Subperm c.children :=
  ((List.filter_sublist.append_left _).subperm).trans (perm_fields h c.children).subperm

end Cst

/-! ## Each node once -/

theorem subperm_flatMap {α β : Type} {xs ys : List α} (h : xs.Subperm ys) (f : α → List β) :
    (xs.flatMap f).Subperm (ys.flatMap f) := by
  obtain ⟨zs, hperm, hsub⟩ := h
  exact (hperm.flatMap_right f).symm.subperm.trans (hsub.flatMap f).subperm

/-- The steps have different nodes converted, at and below some grammar nodes. -/
def Step.ConvertWithin (source : List UInt8) (steps : List Step) (cs : List Cst) : Prop :=
  (Step.convertedAll source steps).Subperm (cs.flatMap Cst.preorder)

namespace Step.ConvertWithin

variable {source : List UInt8} {steps xs ys : List Step} {cs ds : List Cst}

theorem nil (source : List UInt8) (cs : List Cst) : ConvertWithin source [] cs := by
  rw [ConvertWithin, convertedAll_nil]
  exact List.nil_subperm

theorem mono (h : ConvertWithin source steps cs) (hsub : cs.Subperm ds) :
    ConvertWithin source steps ds :=
  List.Subperm.trans h (subperm_flatMap hsub _)

theorem append (h₁ : ConvertWithin source xs cs) (h₂ : ConvertWithin source ys ds) :
    ConvertWithin source (xs ++ ys) (cs ++ ds) := by
  rw [ConvertWithin, convertedAll_append, List.flatMap_append]
  exact List.Subperm.append h₁ h₂

/-- A step that asks for nothing. -/
theorem cons {s : Step} (hs : s.request? = none) (h : ConvertWithin source steps cs) :
    ConvertWithin source (s :: steps) cs := by
  rw [ConvertWithin, convertedAll_cons, converted_eq, hs]
  exact h

theorem scope (inherits : Bool) (h : ConvertWithin source steps cs) :
    ConvertWithin source (.openScope inherits :: (steps ++ [.closeScope])) cs := by
  have hclose : ConvertWithin source [.closeScope] [] := .cons rfl (.nil source [])
  have := h.append hclose
  rw [List.append_nil] at this
  exact .cons rfl this

end Step.ConvertWithin

namespace Cst

/-- Whether it is converted or taken apart as a target, a grammar node has the nodes at
and below it converted once at most. -/
structure Once (source : List UInt8) (c : Cst) : Prop where
  convert : Step.ConvertWithin source [.convert c] [c]
  targets : Step.ConvertWithin source (targets source c) [c]

variable {source : List UInt8}

theorem convertWithin_addParameters (d : Cst) :
    Step.ConvertWithin source (d.addParameters source) [] :=
  .cons rfl (.cons rfl (.nil source []))

theorem convertWithin_assignTarget (d : Cst) (cs : List Cst) :
    Step.ConvertWithin source (d.assignTarget source) cs :=
  .cons rfl (.cons rfl (.nil source cs))

section Below

variable {cs : List Cst} (h : ∀ d ∈ cs, Once source d)

include h

theorem convertWithin_each : Step.ConvertWithin source (each cs) cs := by
  induction cs with
  | nil => exact .nil source []
  | cons c cs ih =>
      have ih := ih fun d hd => h d (List.mem_cons_of_mem _ hd)
      exact (h c List.mem_cons_self).convert.append ih

theorem convertWithin_targetsAll : Step.ConvertWithin source (targetsAll source cs) cs := by
  induction cs with
  | nil => exact .nil source []
  | cons c cs ih =>
      have ih := ih fun d hd => h d (List.mem_cons_of_mem _ hd)
      have hc := h c List.mem_cons_self
      have hfirst : Step.ConvertWithin source
          (if !c.named then []
            else if c.role = .identifier then assignTarget source c
            else if c.type = "rest_assignment" ∨ c.type = "destructured_left_assignment" ∨
                c.type = "left_assignment_list" then targets source c
            else [.convert c]) [c] := by
        split
        · exact .nil source [c]
        · split
          · exact convertWithin_assignTarget c [c]
          · split
            · exact hc.targets
            · exact hc.convert
      rw [targetsAll]
      exact hfirst.append ih

end Below

section Constructs

variable {c : Cst} (h : ∀ d ∈ c.children, Once source d)

include h

theorem convertWithin_others {fields : List String} (hfields : fields.Nodup) :
    Step.ConvertWithin source (each (c.others fields)) (c.others fields) := by
  have hsub := (List.sublist_append_right (fields.filterMap c.child?) (c.others fields)).subperm
  exact convertWithin_each fun d hd =>
    h d ((hsub.trans (subperm_fields_others hfields c)).subset hd)

/-- Steps over some of the fields, then the other children. -/
theorem convertWithin_parts {fields : List String} {steps : List Step}
    (hfields : fields.Nodup)
    (hsteps : Step.ConvertWithin source steps (fields.filterMap c.child?)) :
    Step.ConvertWithin source (steps ++ each (c.others fields)) c.children :=
  (hsteps.append (convertWithin_others h hfields)).mono (subperm_fields_others hfields c)

theorem convertWithin_namedChildren :
    Step.ConvertWithin source (each c.namedChildren) c.children :=
  convertWithin_parts h .nil (.nil source [])

omit h in
theorem child?_sublist {field : String} {fields : List String} (hf : field ∈ fields) :
    (c.child? field).toList.Sublist (fields.filterMap c.child?) := by
  have hsub := (List.singleton_sublist.2 hf).filterMap c.child?
  rw [List.filterMap_cons] at hsub
  cases hc : c.child? field <;> rw [hc] at hsub <;> exact hsub

theorem convertWithin_slotAt {field : String} {fields : List String} (hf : field ∈ fields) :
    Step.ConvertWithin source (c.slotAt field) (fields.filterMap c.child?) := by
  refine .mono ?_ (child?_sublist hf).subperm
  rw [slotAt]
  cases hd : c.child? field with
  | none => exact .cons rfl (.nil source [])
  | some d =>
      -- A slot is filled by converting the node like any other.
      have hconvert := (h d (List.mem_of_find?_eq_some hd)).convert
      rwa [Step.ConvertWithin, Step.convertedAll_cons, Step.converted_eq] at hconvert ⊢

/-- The owner of a method, its parameters, which ask for nothing, and its body. -/
theorem convertWithin_method {owner parameters : List Step}
    (howner : Step.ConvertWithin source owner (c.child? "object").toList)
    (hparameters : Step.ConvertWithin source parameters []) :
    Step.ConvertWithin source (owner ++ .openScope false :: parameters ++
      each (c.others ["object", "name", "parameters"]) ++ [.closeScope]) c.children := by
  have hfields : ["object", "name", "parameters"].Nodup := by decide
  have hopen : Step.ConvertWithin source (.openScope false :: parameters) [] :=
    .cons rfl hparameters
  have hclose : Step.ConvertWithin source [.closeScope] [] := .cons rfl (.nil source [])
  have hhead := howner.append hopen
  rw [List.append_nil] at hhead
  have hparts := convertWithin_parts h hfields (hhead.mono (child?_sublist (by simp)).subperm)
  have hall := hparts.append hclose
  rwa [List.append_nil] at hall

theorem convertWithin_methodPlan :
    Step.ConvertWithin source (c.methodPlan source).steps c.children := by
  refine convertWithin_method h ?_ ?_
  · cases hd : c.child? "object" with
    | none => exact .nil source []
    | some d => exact (h d (List.mem_of_find?_eq_some hd)).convert
  · cases c.child? "parameters" with
    | none => exact .cons rfl (.nil source [])
    | some d => exact convertWithin_addParameters d

theorem convertWithin_blockPlan :
    Step.ConvertWithin source (c.blockPlan source).steps c.children := by
  refine .scope true (convertWithin_parts h (by decide) (.mono ?_ List.nil_subperm))
  cases c.child? "parameters" with
  | none => exact .nil source []
  | some d => exact convertWithin_addParameters d

theorem convertWithin_assignmentPlan :
    Step.ConvertWithin source (c.assignmentPlan source).steps c.children := by
  rw [assignmentPlan]
  cases hleft : c.child? "left" with
  | none => exact convertWithin_namedChildren h
  | some left =>
      have htargets := (h left (List.mem_of_find?_eq_some hleft)).targets
      have hfield : ["left"].filterMap c.child? = [left] := by simp [hleft]
      simp only
      split
      · exact .cons rfl (.cons rfl (convertWithin_parts h (by decide) (.nil source _)))
      · split
        · exact convertWithin_parts h (by decide) (by rwa [hfield])
        · exact convertWithin_namedChildren h

theorem convertWithin_loopPlan :
    Step.ConvertWithin source (c.loopPlan source).steps c.children := by
  refine convertWithin_parts h (by decide) ?_
  rw [loopTarget]
  cases hp : c.child? "pattern" with
  | none => exact .nil source _
  | some p =>
      have htargets := (h p (List.mem_of_find?_eq_some hp)).targets
      have hfield : ["pattern"].filterMap c.child? = [p] := by simp [hp]
      rw [hfield]
      simp only
      split
      · exact convertWithin_assignTarget p [p]
      · exact htargets

theorem convertWithin_plainPlan :
    Step.ConvertWithin source (c.plainPlan source).steps c.children := by
  rw [plainPlan]
  split
  · exact .cons rfl (.nil source _)
  · exact convertWithin_namedChildren h

/-- The plan of a node asks for nodes below it, each once. -/
theorem convertWithin_plan : Step.ConvertWithin source (c.plan source).steps c.children := by
  have hnamed := convertWithin_namedChildren h
  have hbody : Step.ConvertWithin source (each (c.others ["name"])) c.children :=
    convertWithin_parts h (by decide) (.nil source _)
  have htargets := convertWithin_targetsAll h
  cases hr : c.role <;> simp only [plan, hr]
  case comment => exact .nil source _
  case wrapper => exact hnamed
  case parameterList => exact (convertWithin_addParameters c).mono List.nil_subperm
  case identifier => exact .cons rfl (.nil source _)
  case classDefinition | moduleDefinition => exact .scope false hbody
  case methodDefinition => exact convertWithin_methodPlan h
  case block => exact convertWithin_blockPlan h
  case conditional =>
      exact convertWithin_parts h (by decide) (convertWithin_slotAt h (by decide))
  case call =>
      have hname : Step.ConvertWithin source [.emit (.text (c.calledName source))] [] :=
        .cons rfl (.nil source [])
      have hslot : Step.ConvertWithin source (c.slotAt "receiver")
          (["receiver", "method"].filterMap c.child?) := convertWithin_slotAt h (by decide)
      have hhead := hslot.append hname
      rw [List.append_nil] at hhead
      have hparts := convertWithin_parts h (by decide) hhead
      rwa [List.append_assoc] at hparts
  case assignment => exact convertWithin_assignmentPlan h
  case loop => exact convertWithin_loopPlan h
  case exceptionVariable =>
      obtain ⟨i, cs⟩ := c
      exact htargets
  case group => exact hnamed
  case gate =>
      rw [gatePlan]
      split
      · exact convertWithin_plainPlan h
      · exact .scope false hnamed
  case plain => exact convertWithin_plainPlan h

end Constructs

theorem once (source : List UInt8) (c : Cst) : Once source c := by
  induction c using Cst.induction with
  | step c ih =>
      have hself : ([c] : List Cst).flatMap preorder = c :: c.children.flatMap preorder := by
        rw [List.flatMap_singleton, preorder_eq]
      constructor
      · have hplan := convertWithin_plan ih
        rw [Step.ConvertWithin, Step.convertedAll_cons, Step.convertedAll_nil, Step.converted,
          converted, List.append_nil, hself]
        exact (List.subperm_cons c).2 hplan
      · have htargets := convertWithin_targetsAll ih
        rw [Step.ConvertWithin, hself]
        obtain ⟨i, cs⟩ := c
        rw [targets]
        exact List.Subperm.cons_right _ htargets

/-- **Conversions.** Whatever nodes a machine is asked to convert on the way to the
simplified tree of a file, the root apart, are different nodes below the root. -/
theorem requests_subperm (source : List UInt8) (root : Cst) :
    (root :: Machine.requests source ⟨root.programSteps, [], [], []⟩).Subperm root.preorder := by
  have hparts : Step.ConvertWithin source root.programSteps root.children :=
    .scope false (convertWithin_namedChildren fun d _ => once source d)
  rw [Machine.requests_eq (run_programSteps source root), Machine.ahead, List.flatMap_nil, List.append_nil, preorder_eq]
  exact (List.subperm_cons root).2 hparts

end Cst

end RubySmells
