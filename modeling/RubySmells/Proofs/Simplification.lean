import RubySmells.Proofs.Execution

/-!
# The machine and the recursion on the tree

Simplification by recursion on the concrete syntax tree keeps the locals of one
scope only. That is enough: whatever scopes are open, following the plan of a
node changes the innermost one as the recursion says, and leaves the others
alone (`Cst.perform_eq`). So the machine comes to the simplified tree of every
source file, without a fault and with no scope left open (`Cst.build_eq`).
-/

namespace RubySmells

/-- Whatever scopes are open, the steps add these children, make this of the
innermost scope and leave the others alone. -/
def Step.Yields (source : List UInt8) (steps : List Step) (top : NameSet)
    (made : List Child) (top' : NameSet) : Prop :=
  ∀ below, Step.performAll source steps (top :: below) = .ok (made, top' :: below)

namespace Step.Yields

variable {source : List UInt8} {steps xs ys : List Step} {top mid top' : NameSet}
  {made more : List Child}

theorem nil (source : List UInt8) (top : NameSet) : Yields source [] top [] top := by
  intro below
  exact performAll_nil source (top :: below)

theorem single {s : Step}
    (h : ∀ below, s.perform source (top :: below) = .ok (made, top' :: below)) :
    Yields source [s] top made top' := by
  intro below
  rw [performAll_singleton, h]

theorem append (h₁ : Yields source xs top made mid) (h₂ : Yields source ys mid more top') :
    Yields source (xs ++ ys) top (made ++ more) top' := by
  intro below
  rw [performAll_append, h₁]
  show (performAll source ys (mid :: below) >>= _) = _
  rw [h₂]
  rfl

theorem emit (source : List UInt8) (top : NameSet) (child : Child) :
    Yields source [.emit child] top [child] top := by
  apply single
  intro below
  rw [perform]

theorem declare (source : List UInt8) (top : NameSet) (names : List String) :
    Yields source [.declare names] top [] (top.insertAll names) := by
  apply single
  intro below
  rw [perform]
  rfl

theorem resolve (source : List UInt8) (top : NameSet) (word : Cst) :
    Yields source [.resolve word] top
      [.node (word.resolved source (decide (word.text source ∈ top)))] top := by
  apply single
  intro below
  rw [perform]
  rfl

theorem convert {c : Cst} (h : Yields source (c.plan source).steps top made top') :
    Yields source [.convert c] top ((c.plan source).closing.apply made) top' := by
  apply single
  intro below
  rw [perform, Cst.perform, h]
  rfl

theorem slot {c : Cst} (h : Yields source [.convert c] top made top') :
    Yields source [.slot c] top [Child.single (c.header .other none) made] top' := by
  apply single
  intro below
  have hconvert := h below
  rw [performAll_singleton, perform] at hconvert
  rw [perform, hconvert]
  rfl

end Step.Yields

/-- Steps in a scope of their own leave the scopes around it alone; there may be
none. -/
theorem Step.performAll_scope {source : List UInt8} {steps : List Step} {start top' : NameSet}
    {made : List Child} {inherits : Bool} {scopes : Scopes}
    (hopen : scopes.push inherits = start :: scopes)
    (h : Step.Yields source steps start made top') :
    Step.performAll source (.openScope inherits :: (steps ++ [.closeScope])) scopes =
      .ok (made, scopes) := by
  rw [performAll_cons, perform, hopen]
  show (performAll source (steps ++ [.closeScope]) (start :: scopes) >>= _) = _
  rw [performAll_append, h]
  show ((performAll source [.closeScope] (top' :: scopes) >>= _) >>= _) = _
  rw [performAll_singleton, perform]
  simp [bind, Except.bind, pure, Except.pure, Scopes.pop]

theorem Step.Yields.scope {source : List UInt8} {steps : List Step} {top' : NameSet}
    {made : List Child} (inherits : Bool) (top : NameSet)
    (h : Step.Yields source steps (if inherits then top else ∅) made top') :
    Step.Yields source (.openScope inherits :: (steps ++ [.closeScope])) top made top := by
  intro below
  refine Step.performAll_scope ?_ h
  cases inherits <;> rfl

/-! ## Passing over fields -/

namespace Cst

theorem dropFields_nil (fields : List String) : dropFields fields [] = [] := by
  induction fields with
  | nil => rfl
  | cons f fields ih => exact ih

/-- A node fills one field at most. -/
theorem eq_of_fills {c : Cst} {f g : String} (hf : c.fills f = true) (hg : c.fills g = true) :
    f = g := by
  have hf : c.info.field = some f := of_decide_eq_true hf
  have hg : c.info.field = some g := of_decide_eq_true hg
  exact Option.some.inj (hf.symm.trans hg)

/-- Dropping fields from the front: a node that fills one of them goes, and takes
the field with it. -/
theorem dropFields_cons (fields : List String) (c : Cst) (cs : List Cst) :
    dropFields fields (c :: cs) =
      match fields.find? (fun f => c.fills f) with
      | some f => dropFields (fields.erase f) cs
      | none => c :: dropFields fields cs := by
  induction fields generalizing cs with
  | nil => rfl
  | cons f fields ih =>
      show dropFields fields ((c :: cs).eraseP (fills f)) = _
      rw [List.eraseP_cons, List.find?_cons]
      cases hf : c.fills f with
      | true => simp
      | false =>
          rw [cond_false, ih]
          cases hg : fields.find? (fun f => c.fills f) with
          | none => rfl
          | some g =>
              have hfill : c.fills g = true := by simpa using List.find?_some hg
              have hne : f ≠ g := by
                rintro rfl
                rw [hf] at hfill
                exact absurd hfill (by simp)
              have herase : (f :: fields).erase g = f :: fields.erase g :=
                List.erase_cons_tail (by simpa using hne)
              simp only [herase]
              rfl

/-! ## Fields by look-up -/

variable (source : List UInt8)

theorem convertAt_eq (field : String) (cs : List Cst) (top : NameSet) :
    convertAt source field cs top =
      match cs.find? (fills field) with
      | some d => convert source d top
      | none => ([], top) := by
  induction cs with
  | nil => rfl
  | cons c cs ih =>
      rw [convertAt, List.find?_cons]
      cases c.fills field with
      | true => rfl
      | false => exact ih

theorem slotIn_eq (field : String) (cs : List Cst) (top : NameSet) :
    slotIn source field cs top =
      match cs.find? (fills field) with
      | some d => (Made.single (convert source d top) (d.header .other none),
          (convert source d top).2)
      | none => (.absent, top) := by
  induction cs with
  | nil => rfl
  | cons c cs ih =>
      rw [slotIn, List.find?_cons]
      cases c.fills field with
      | true => rfl
      | false => exact ih

theorem targetsAt_eq (field : String) (cs : List Cst) (top : NameSet) :
    targetsAt source field cs top =
      match cs.find? (fills field) with
      | some d => targetsBelow source d top
      | none => ([], top) := by
  induction cs with
  | nil => rfl
  | cons c cs ih =>
      rw [targetsAt, List.find?_cons]
      cases c.fills field with
      | true => rfl
      | false => exact ih

theorem loopTargetAt_eq (cs : List Cst) (top : NameSet) :
    loopTargetAt source cs top =
      match cs.find? (fills "pattern") with
      | some d => if d.role = .identifier then assigned source d top else targetsBelow source d top
      | none => ([], top) := by
  induction cs with
  | nil => rfl
  | cons c cs ih =>
      rw [loopTargetAt, List.find?_cons]
      cases c.fills "pattern" with
      | true => rfl
      | false => exact ih

/-! ## Steps and recursion -/

theorem size_le_sizeAll {d : Cst} {cs : List Cst} (h : d ∈ cs) : d.size ≤ sizeAll cs := by
  induction cs with
  | nil => exact absurd h List.not_mem_nil
  | cons c cs ih =>
      rw [sizeAll_cons]
      rcases List.mem_cons.1 h with rfl | h
      · omega
      · have := ih h
        omega

/-- What holds of a grammar node whenever it holds of its children, holds of every
grammar node. -/
@[elab_as_elim]
theorem induction {motive : Cst → Prop}
    (step : ∀ c : Cst, (∀ d ∈ c.children, motive d) → motive c) (c : Cst) : motive c := by
  generalize hn : c.size = n
  induction n using Nat.strongRecOn generalizing c with
  | ind n ih =>
      subst hn
      refine step c fun d hd => ih d.size ?_ d rfl
      have := size_le_sizeAll hd
      rw [size_eq c]
      omega

variable {source}

/-- The steps make what the recursion makes, of the same locals. -/
def Makes (source : List UInt8) (steps : List Step) (top : NameSet) (m : Made) : Prop :=
  Step.Yields source steps top m.children m.2

theorem Makes.append {xs ys : List Step} {top : NameSet} {m₁ m₂ : Made}
    (h₁ : Makes source xs top m₁) (h₂ : Makes source ys m₁.2 m₂) :
    Makes source (xs ++ ys) top (m₁.1 ++ m₂.1, m₂.2) := by
  have h := Step.Yields.append h₁ h₂
  rwa [Made.children, Made.children, ← List.map_append] at h

/-- A grammar node is simplified, or taken apart as a target, in the same way by
steps and by recursion. -/
structure Agrees (source : List UInt8) (c : Cst) : Prop where
  convert : ∀ top, Makes source [.convert c] top (convert source c top)
  targets : ∀ top, Makes source (targets source c) top (targetsBelow source c top)

section Below

variable {cs : List Cst} (h : ∀ d ∈ cs, Agrees source d)

include h

theorem makes_each (fields : List String) (top : NameSet) :
    Makes source (each ((dropFields fields cs).filter named)) top
      (eachIn source fields cs top) := by
  induction cs generalizing fields top with
  | nil =>
      rw [dropFields_nil, eachIn]
      exact .nil source top
  | cons c cs ih =>
      have ih := ih fun d hd => h d (List.mem_cons_of_mem _ hd)
      rw [dropFields_cons, eachIn]
      cases fields.find? (fun f => c.fills f) with
      | some f => exact ih (fields.erase f) top
      | none =>
          simp only [List.filter_cons]
          cases c.named with
          | false => exact ih fields top
          | true => exact ((h c List.mem_cons_self).convert top).append (ih fields _)

theorem makes_targetsAll (top : NameSet) :
    Makes source (targetsAll source cs) top (targetsIn source cs top) := by
  induction cs generalizing top with
  | nil =>
      rw [targetsAll, targetsIn]
      exact .nil source top
  | cons c cs ih =>
      have ih := ih fun d hd => h d (List.mem_cons_of_mem _ hd)
      have hc := h c List.mem_cons_self
      rw [targetsAll, targetsIn]
      refine .append ?_ (ih _)
      by_cases hnamed : (!c.named) = true
      · rw [if_pos hnamed, if_pos hnamed]
        exact .nil source top
      · rw [if_neg hnamed, if_neg hnamed]
        split
        · exact (Step.Yields.declare source top _).append (.emit source _ _)
        · split
          · exact hc.targets top
          · exact hc.convert top

end Below

/-! ## The plans -/

section Plans

variable {c : Cst} (h : ∀ d ∈ c.children, Agrees source d) (top : NameSet)

include h

theorem makes_others (fields : List String) :
    Makes source (each (c.others fields)) top (eachIn source fields c.children top) :=
  makes_each h fields top

theorem yields_slotAt (field : String) :
    Step.Yields source (c.slotAt field) top [(slotIn source field c.children top).1]
      (slotIn source field c.children top).2 := by
  rw [slotAt, child?, slotIn_eq]
  cases hd : c.children.find? (fills field) with
  | none => exact .emit source top _
  | some d => exact ((h d (List.mem_of_find?_eq_some hd)).convert top).slot

omit h in
/-- A node is simplified by the steps of its plan. -/
theorem Makes.of_plan {p : Plan} {made : List Child} {top' : NameSet} {m : Made}
    (hplan : c.plan source = p) (hsteps : Step.Yields source p.steps top made top')
    (hmade : p.closing.apply made = m.children) (htop : top' = m.2) :
    Makes source [.convert c] top m := by
  subst hplan htop
  show Step.Yields source _ top m.children m.2
  rw [← hmade]
  exact hsteps.convert

omit h in
theorem yields_addParameters (d : Cst) :
    Step.Yields source (d.addParameters source) top [.node (d.parameterListNode source)]
      (top.insertAll (d.declaredLocals source)) :=
  (Step.Yields.declare source top _).append (.emit source _ _)

theorem makes_definition {kind : Kind} (hplan : c.plan source = c.definitionPlan source kind) :
    Makes source [.convert c] top
      ([.mk (c.header kind (some (c.fieldText source "name")))
        (Made.children (eachIn source ["name"] c.children ∅))], top) :=
  .of_plan top hplan (.scope false top (makes_others h ∅ ["name"])) rfl rfl

/-- The owner of a method is simplified before the scope of the method opens. -/
theorem makes_owner :
    Makes source (match c.child? "object" with
      | some d => [.convert d]
      | none => []) top (convertAt source "object" c.children top) := by
  rw [child?, convertAt_eq]
  cases hd : c.children.find? (fills "object") with
  | none => exact .nil source top
  | some d => exact (h d (List.mem_of_find?_eq_some hd)).convert top

theorem makes_method (hr : c.role = .methodDefinition) :
    Makes source [.convert c] top (convert source c top) := by
  have hplan : c.plan source = c.methodPlan source := by rw [plan, hr]
  have howner := makes_owner h top
  obtain ⟨i, cs⟩ := c
  rw [convert, hr]
  rw [methodPlan] at hplan
  cases hp : (Cst.mk i cs).child? "parameters" with
  | none =>
      rw [hp] at hplan
      refine .of_plan top hplan ?_ rfl rfl
      simp only [List.append_assoc, List.cons_append]
      exact Step.Yields.append howner
        (.scope false _ ((Step.Yields.emit source ∅ _).append (makes_others h _ _)))
  | some d =>
      rw [hp] at hplan
      refine .of_plan top hplan ?_ rfl rfl
      simp only [List.append_assoc, List.cons_append]
      exact Step.Yields.append howner
        (.scope false _ ((yields_addParameters ∅ d).append (makes_others h _ _)))

theorem makes_block (hr : c.role = .block) :
    Makes source [.convert c] top (convert source c top) := by
  have hplan : c.plan source = c.blockPlan source := by rw [plan, hr]
  obtain ⟨i, cs⟩ := c
  rw [convert, hr]
  rw [blockPlan] at hplan
  cases hp : (Cst.mk i cs).child? "parameters" with
  | none =>
      rw [hp] at hplan
      exact .of_plan top hplan (.scope true top (makes_others h top _)) rfl rfl
  | some d =>
      rw [hp] at hplan
      have hbody := (yields_addParameters top d).append (makes_others h _ ["parameters"])
      exact .of_plan top hplan (.scope true top hbody) rfl rfl

theorem makes_assignment (hr : c.role = .assignment) :
    Makes source [.convert c] top (convert source c top) := by
  have hplan : c.plan source = c.assignmentPlan source := by rw [plan, hr]
  have hparts : Makes source (each c.namedChildren) top (eachIn source [] c.children top) :=
    makes_others h top []
  obtain ⟨i, cs⟩ := c
  rw [convert, hr]
  rw [assignmentPlan] at hplan
  cases hleft : (Cst.mk i cs).child? "left" with
  | none =>
      rw [hleft] at hplan
      exact .of_plan top hplan hparts rfl rfl
  | some left =>
      simp only [hleft] at hplan ⊢
      have hleft_mem : left ∈ cs := List.mem_of_find?_eq_some hleft
      by_cases hword : left.role = .identifier
      · rw [if_pos hword] at hplan ⊢
        refine .of_plan top hplan ?_ rfl rfl
        exact (Step.Yields.declare source top _).append
          ((Step.Yields.emit source _ _).append (makes_others h _ _))
      · rw [if_neg hword] at hplan ⊢
        by_cases hlist : left.type = "left_assignment_list"
        · rw [if_pos hlist] at hplan ⊢
          have htargets : Makes source (targets source left) top
              (targetsAt source "left" cs top) := by
            rw [targetsAt_eq, show cs.find? (fills "left") = some left from hleft]
            exact (h left hleft_mem).targets top
          exact .of_plan top hplan (htargets.append (makes_others h _ _)) rfl rfl
        · rw [if_neg hlist] at hplan ⊢
          exact .of_plan top hplan hparts rfl rfl

theorem makes_loop (hr : c.role = .loop) :
    Makes source [.convert c] top (convert source c top) := by
  have hplan : c.plan source = c.loopPlan source := by rw [plan, hr]
  have htarget : Makes source (c.loopTarget source) top
      (loopTargetAt source c.children top) := by
    rw [loopTarget, child?, loopTargetAt_eq]
    cases hd : c.children.find? (fills "pattern") with
    | none => exact .nil source top
    | some d =>
        by_cases hword : d.role = .identifier
        · simp only [if_pos hword]
          exact (Step.Yields.declare source top _).append (.emit source _ _)
        · simp only [if_neg hword]
          exact (h d (List.mem_of_find?_eq_some hd)).targets top
  obtain ⟨i, cs⟩ := c
  rw [convert, hr]
  exact .of_plan top hplan (htarget.append (makes_others h _ _)) rfl rfl

theorem makes_plain (hplan : c.plan source = c.plainPlan source) :
    Makes source [.convert c] top
      (if c.namedChildren.isEmpty then
        ([.mk (c.header .literal none) [.text (c.text source)]], top)
      else Made.wrap (eachIn source [] c.children top) (c.header .other none)) := by
  rw [plainPlan] at hplan
  by_cases hempty : c.namedChildren.isEmpty = true
  · rw [if_pos hempty] at hplan ⊢
    exact .of_plan top hplan (.emit source top _) rfl rfl
  · rw [if_neg hempty] at hplan ⊢
    exact .of_plan top hplan (makes_others h top []) rfl rfl

theorem makes_gate (hr : c.role = .gate) :
    Makes source [.convert c] top (convert source c top) := by
  have hplan : c.plan source = c.gatePlan source := by rw [plan, hr]
  rw [gatePlan] at hplan
  obtain ⟨i, cs⟩ := c
  rw [convert, hr]
  by_cases hempty : (Cst.mk i cs).namedChildren.isEmpty = true
  · rw [if_pos hempty, plainPlan, if_pos hempty] at hplan
    simp only [if_pos hempty]
    exact .of_plan top hplan (.emit source top _) rfl rfl
  · rw [if_neg hempty] at hplan
    simp only [if_neg hempty]
    exact .of_plan top hplan (.scope false top (makes_others h ∅ [])) rfl rfl

theorem makes_group (hr : c.role = .group) :
    Makes source [.convert c] top (convert source c top) := by
  have hplan : c.plan source = ⟨each c.namedChildren, .group (c.header .other none)⟩ := by
    rw [plan, hr]
  obtain ⟨i, cs⟩ := c
  have hparts : Makes source (each (Cst.mk i cs).namedChildren) top
      (eachIn source [] cs top) := makes_others h top []
  rw [convert, hr]
  revert hparts
  simp only
  -- A group makes way for what is in it only if that is a single node.
  generalize eachIn source [] cs top = m
  rcases m with ⟨_ | ⟨n, _ | ⟨n', ns⟩⟩, top'⟩ <;> intro hparts
  · exact .of_plan top hplan hparts rfl rfl
  · exact .of_plan top hplan hparts rfl rfl
  · exact .of_plan top hplan hparts rfl rfl

/-- The recursion follows the plan of every construct. -/
theorem makes_convert : Makes source [.convert c] top (convert source c top) := by
  have hparts := makes_others h top []
  cases hr : c.role with
  | methodDefinition => exact makes_method h top hr
  | block => exact makes_block h top hr
  | assignment => exact makes_assignment h top hr
  | loop => exact makes_loop h top hr
  | gate => exact makes_gate h top hr
  | group => exact makes_group h top hr
  | classDefinition =>
      have hplan : c.plan source = c.definitionPlan source .classDefinition := by rw [plan, hr]
      have hmakes := makes_definition h top hplan
      obtain ⟨i, cs⟩ := c
      rwa [convert, hr]
  | moduleDefinition =>
      have hplan : c.plan source = c.definitionPlan source .moduleDefinition := by rw [plan, hr]
      have hmakes := makes_definition h top hplan
      obtain ⟨i, cs⟩ := c
      rwa [convert, hr]
  | plain =>
      have hplan : c.plan source = c.plainPlan source := by rw [plan, hr]
      have hmakes := makes_plain h top hplan
      obtain ⟨i, cs⟩ := c
      rwa [convert, hr]
  | conditional =>
      have hplan : c.plan source = c.conditionalPlan := by rw [plan, hr]
      have hsteps := (yields_slotAt h top "condition").append (makes_others h _ ["condition"])
      obtain ⟨i, cs⟩ := c
      rw [convert, hr]
      exact .of_plan top hplan hsteps rfl rfl
  | call =>
      have hplan : c.plan source = c.callPlan source := by rw [plan, hr]
      have hsteps := (yields_slotAt h top "receiver").append
        ((Step.Yields.emit source _ (.text (c.calledName source))).append
          (makes_others h _ ["receiver", "method"]))
      obtain ⟨i, cs⟩ := c
      rw [convert, hr]
      exact .of_plan top hplan hsteps rfl rfl
  | comment =>
      have hplan : c.plan source = ⟨[], .splice⟩ := by rw [plan, hr]
      obtain ⟨i, cs⟩ := c
      rw [convert, hr]
      exact .of_plan top hplan (.nil source top) rfl rfl
  | wrapper =>
      have hplan : c.plan source = ⟨each c.namedChildren, .splice⟩ := by rw [plan, hr]
      obtain ⟨i, cs⟩ := c
      rw [convert, hr]
      exact .of_plan top hplan hparts rfl rfl
  | parameterList =>
      have hplan : c.plan source = ⟨c.addParameters source, .splice⟩ := by rw [plan, hr]
      obtain ⟨i, cs⟩ := c
      rw [convert, hr]
      exact .of_plan top hplan (yields_addParameters top _) rfl rfl
  | identifier =>
      have hplan : c.plan source = ⟨[.resolve c], .splice⟩ := by rw [plan, hr]
      obtain ⟨i, cs⟩ := c
      rw [convert, hr]
      exact .of_plan top hplan (.resolve source top _) rfl rfl
  | exceptionVariable =>
      have hplan : c.plan source = ⟨targets source c, .wrap (c.header .other none)⟩ := by
        rw [plan, hr]
      have htargets := makes_targetsAll h top
      obtain ⟨i, cs⟩ := c
      rw [convert, hr]
      rw [targets] at hplan
      exact .of_plan top hplan htargets rfl rfl

end Plans

theorem agrees (source : List UInt8) (c : Cst) : Agrees source c := by
  induction c using Cst.induction with
  | step c ih =>
      constructor
      · exact makes_convert ih
      · intro top
        have htargets := makes_targetsAll ih top
        obtain ⟨i, cs⟩ := c
        rw [targets, targetsBelow]
        exact htargets

/-- Following the plan of a node changes the innermost scope as the recursion on
the tree says, and leaves the others alone. -/
theorem perform_eq (source : List UInt8) (c : Cst) (top : NameSet) (below : Scopes) :
    c.perform source (top :: below) =
      .ok (Made.children (convert source c top), (convert source c top).2 :: below) := by
  have h := (agrees source c).convert top below
  rwa [Step.performAll_singleton, Step.perform] at h

theorem performAll_programSteps (source : List UInt8) (root : Cst) :
    Step.performAll source root.programSteps [] = .ok ((root.simplify source).children, []) := by
  have hparts : Makes source (each root.namedChildren) ∅ (eachIn source [] root.children ∅) :=
    makes_others (fun d _ => agrees source d) ∅ []
  exact Step.performAll_scope rfl hparts

theorem run_programSteps (source : List UInt8) (root : Cst) :
    Machine.run source ⟨root.programSteps, [], [], []⟩ =
      .ok ((root.simplify source).children, []) := by
  have hrun := Machine.run_append source root.programSteps [] [] [] []
  rw [List.append_nil, performAll_programSteps] at hrun
  rw [hrun]
  exact Machine.run_of_done rfl

theorem build_eq (source : List UInt8) (root : Cst) :
    root.build source = .ok (root.simplify source, []) := by
  rw [build, run_programSteps]
  rfl

end Cst

end RubySmells
