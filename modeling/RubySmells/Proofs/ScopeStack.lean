import Mathlib.Logic.Relation
import RubySmells.Proofs.Constructs
import RubySmells.Proofs.Resolution

/-!
# The stack of scopes

What becomes of the scopes that are open when a grammar node is converted, in the
steps of the machine.

* **steps** — where the recursion over plans leads, the machine comes by its steps,
  whatever comes after and whatever waits (`Machine.takes_of_performAll`);
* **height** — when a node has been converted, as many scopes are open as before,
  and all but the innermost are what they were; that one has kept its locals
  (`Cst.takes_convert`, `Cst.mem_locals_convert`);
* **boundaries** — a construct with a scope of its own leaves all scopes alone, and
  a method leaves what its owner leaves (`Cst.locals_convert_of_scoped`,
  `Cst.locals_convert_of_owner`). What a definition becomes does not depend on the
  locals before it, but for the owner of a method (`Cst.exists_convert_of_closed`,
  `Cst.exists_convert_of_method`).
-/

namespace RubySmells

namespace Machine

/-! ## Steps of the machine -/

/-- Whether the machine comes from one state to another by its steps. -/
def Reaches (source : List UInt8) : Machine → Machine → Prop :=
  Relation.ReflTransGen fun m next => m.advance source = .ok (.more next)

/-- Taking these steps, the machine adds these children and leaves these scopes open,
whatever comes after and whatever waits. -/
def Takes (source : List UInt8) (steps : List Step) (scopes : Scopes) (made : List Child)
    (after : Scopes) : Prop :=
  ∀ rest before waiting,
    Reaches source ⟨steps ++ rest, before, waiting, scopes⟩
      ⟨rest, before ++ made, waiting, after⟩

theorem Reaches.run_eq {source : List UInt8} {m m' : Machine} (h : Reaches source m m') :
    m.run source = m'.run source := by
  induction h with
  | refl => rfl
  | tail _ hstep ih => rw [ih, run_of_more hstep]

/-- On the way to an end nothing fails. -/
theorem Reaches.advance_ne_error {source : List UInt8} {m m' : Machine}
    {p : List Child × Scopes} (h : Reaches source m m') (hrun : m.run source = .ok p)
    (fault : ScopeFault) : m'.advance source ≠ .error fault := by
  intro hfault
  rw [h.run_eq, run_of_error hfault] at hrun
  exact absurd hrun (by simp)

/-- A computation that ends well has got through its first part. -/
theorem exists_of_bind_eq_ok {ε α β : Type} {x : Except ε α} {f : α → Except ε β} {b : β}
    (h : (x >>= f) = .ok b) : ∃ a, x = .ok a ∧ f a = .ok b := by
  cases x with
  | error e => exact absurd h (by simp [bind, Except.bind])
  | ok a => exact ⟨a, rfl, h⟩

namespace Takes

variable {source : List UInt8} {s : Step} {xs ys : List Step} {scopes mid after : Scopes}
  {made more : List Child}

theorem nil (source : List UInt8) (scopes : Scopes) : Takes source [] scopes [] scopes := by
  intro rest before waiting
  rw [List.append_nil]
  exact .refl

theorem append (h₁ : Takes source xs scopes made mid) (h₂ : Takes source ys mid more after) :
    Takes source (xs ++ ys) scopes (made ++ more) after := by
  intro rest before waiting
  rw [List.append_assoc, ← List.append_assoc before]
  exact (h₁ (ys ++ rest) before waiting).trans (h₂ rest (before ++ made) waiting)

/-- A step that changes the scopes only. -/
theorem unmade (h : ∀ rest before waiting,
      advance source ⟨s :: rest, before, waiting, scopes⟩ =
        .ok (.more ⟨rest, before, waiting, after⟩)) :
    Takes source [s] scopes [] after := by
  intro rest before waiting
  rw [List.append_nil]
  exact .single (h rest before waiting)

/-- A node is asked for, the plan of the node is followed to its end, and what it made
is handed over. -/
theorem ask {c : Cst} (slot : Option Header)
    (hs : ∀ rest before waiting,
      advance source ⟨s :: rest, before, waiting, scopes⟩ =
        .ok (.more (Machine.ask source ⟨s :: rest, before, waiting, scopes⟩ c slot rest)))
    (hplan : Takes source (c.plan source).steps scopes made after) :
    Takes source [s] scopes
      (Waiting.receive ⟨(c.plan source).closing, slot, [], []⟩ made) after := by
  intro rest before waiting
  have hbelow := hplan [] [] (⟨(c.plan source).closing, slot, before, rest⟩ :: waiting)
  rw [List.append_nil, List.nil_append] at hbelow
  refine .trans (.single (hs rest before waiting)) (.trans hbelow (.single ?_))
  cases slot <;> rfl

end Takes

/-- One step, given the plans of the nodes it may ask for. -/
theorem takes_of_perform {source : List UInt8} {s : Step} {scopes after : Scopes}
    {made : List Child}
    (h : ∀ c made after, s = .convert c ∨ s = .slot c →
      Step.performAll source (c.plan source).steps scopes = .ok (made, after) →
      Takes source (c.plan source).steps scopes made after)
    (hs : s.perform source scopes = .ok (made, after)) : Takes source [s] scopes made after := by
  cases s with
  | declare names =>
      rw [Step.perform] at hs
      obtain ⟨scopes', hdeclare, hs⟩ := exists_of_bind_eq_ok hs
      obtain ⟨rfl, rfl⟩ := Prod.mk.inj (Except.ok.inj hs)
      refine .unmade fun rest before waiting => ?_
      simp only [advance, hdeclare]
      rfl
  | closeScope =>
      rw [Step.perform] at hs
      obtain ⟨scopes', hpop, hs⟩ := exists_of_bind_eq_ok hs
      obtain ⟨rfl, rfl⟩ := Prod.mk.inj (Except.ok.inj hs)
      refine .unmade fun rest before waiting => ?_
      simp only [advance, hpop]
      rfl
  | openScope inherits =>
      rw [Step.perform] at hs
      obtain ⟨rfl, rfl⟩ := Prod.mk.inj (Except.ok.inj hs)
      exact .unmade fun _ _ _ => rfl
  | emit child | resolve word =>
      rw [Step.perform] at hs
      obtain ⟨rfl, rfl⟩ := Prod.mk.inj (Except.ok.inj hs)
      exact fun rest before waiting => .single rfl
  | convert c =>
      rw [Step.perform, Cst.perform] at hs
      obtain ⟨p, hplan, hs⟩ := exists_of_bind_eq_ok hs
      obtain ⟨rfl, rfl⟩ := Prod.mk.inj (Except.ok.inj hs)
      exact .ask none (fun _ _ _ => rfl) (h c p.1 p.2 (.inl rfl) hplan)
  | slot c =>
      rw [Step.perform, Cst.perform] at hs
      rw [bind_assoc] at hs
      obtain ⟨p, hplan, hs⟩ := exists_of_bind_eq_ok hs
      obtain ⟨rfl, rfl⟩ := Prod.mk.inj (Except.ok.inj hs)
      exact .ask (some _) (fun _ _ _ => rfl) (h c p.1 p.2 (.inr rfl) hplan)

/-- Where the recursion over steps leads, the machine comes by taking them. -/
theorem takes_of_performAll {source : List UInt8} {steps : List Step} {scopes after : Scopes}
    {made : List Child} (h : Step.performAll source steps scopes = .ok (made, after)) :
    Takes source steps scopes made after := by
  -- On the work in the steps: the plan of a node is less work than the step
  -- that asks for the node.
  generalize hn : Step.workAll steps = n
  induction n using Nat.strongRecOn generalizing steps scopes made after with
  | ind n ih =>
      subst hn
      cases steps with
      | nil =>
          rw [Step.performAll_nil] at h
          obtain ⟨rfl, rfl⟩ := Prod.mk.inj (Except.ok.inj h)
          exact .nil source scopes
      | cons s tail =>
          have hplan : ∀ c made after, s = .convert c ∨ s = .slot c →
              Step.performAll source (c.plan source).steps scopes = .ok (made, after) →
              Takes source (c.plan source).steps scopes made after := by
            intro c made after hs hperform
            have hwork := c.work_plan source
            refine ih _ ?_ hperform rfl
            rcases hs with rfl | rfl <;>
              simp only [Step.workAll_cons, Step.work] <;> omega
          rw [Step.performAll_cons] at h
          obtain ⟨p, hfirst, h⟩ := exists_of_bind_eq_ok h
          obtain ⟨q, hmore, h⟩ := exists_of_bind_eq_ok h
          obtain ⟨rfl, rfl⟩ := Prod.mk.inj (Except.ok.inj h)
          have htail : Takes source tail p.2 q.1 q.2 := by
            have hpos := s.work_pos
            refine ih _ ?_ hmore rfl
            simp only [Step.workAll_cons]
            omega
          exact Takes.append (takes_of_perform hplan hfirst) htail

end Machine

namespace Cst

/-! ## Height -/

variable (source : List UInt8)

/-- Converting a node changes the innermost scope only. -/
theorem takes_convert (c : Cst) (top : NameSet) (below : Scopes) :
    Machine.Takes source [.convert c] (top :: below)
      (Made.children (convert source c top)) ((convert source c top).2 :: below) := by
  refine Machine.takes_of_performAll ?_
  rw [Step.performAll_singleton, Step.perform]
  exact perform_eq source c top below

theorem takes_slot (c : Cst) (top : NameSet) (below : Scopes) :
    Machine.Takes source [.slot c] (top :: below)
      [Child.single (c.header .other none) (Made.children (convert source c top))]
      ((convert source c top).2 :: below) := by
  refine Machine.takes_of_performAll ?_
  rw [Step.performAll_singleton, Step.perform, perform_eq]
  rfl

/-- No local is lost on the way. -/
theorem mem_locals_convert {c : Cst} {top : NameSet} {name : String} (h : name ∈ top) :
    name ∈ (convert source c top).2 :=
  (((resolves source c).convert top).mem_after name).2 (.inl h)

/-! ## Boundaries -/

/-- A construct that reads everything in it in a scope of its own leaves no local
behind. -/
theorem locals_convert_of_scoped {c : Cst} (top : NameSet)
    (h : c.type ∈ ["class", "module", "singleton_class", "program", "block", "do_block",
      "lambda"]) : (convert source c top).2 = top := by
  have hr : c.role = .classDefinition ∨ c.role = .moduleDefinition ∨ c.role = .gate ∨
      c.role = .block := by
    simp only [List.mem_cons, List.not_mem_nil, or_false] at h
    rw [role]
    rcases h with h | h | h | h | h | h | h <;> rw [h] <;> decide
  rcases hr with hr | hr | hr | hr
  · rw [convert_classDefinition source top hr]
  · rw [convert_moduleDefinition source top hr]
  · rw [convert_gate source top hr]
  · rw [convert_block source top hr]

theorem role_eq_methodDefinition {c : Cst} (h : c.type ∈ ["method", "singleton_method"]) :
    c.role = .methodDefinition := by
  simp only [List.mem_cons, List.not_mem_nil, or_false] at h
  rw [role]
  rcases h with h | h <;> rw [h] <;> rfl

/-- A method without an owner leaves the locals alone. -/
theorem locals_convert_of_ownerless {c : Cst} (top : NameSet)
    (h : c.type ∈ ["method", "singleton_method"]) (howner : c.child? "object" = none) :
    (convert source c top).2 = top := by
  have hnone : c.children.find? (fills "object") = none := howner
  rw [convert_method source (role_eq_methodDefinition h), convertAt_eq, hnone]

/-- A method with an owner leaves the locals that the owner leaves. -/
theorem locals_convert_of_owner {c owner : Cst} (top : NameSet)
    (h : c.type ∈ ["method", "singleton_method"]) (howner : c.child? "object" = some owner) :
    (convert source c top).2 = (convert source owner top).2 := by
  have hsome : c.children.find? (fills "object") = some owner := howner
  rw [convert_method source (role_eq_methodDefinition h), convertAt_eq, hsome]

/-- What a class, a module, a singleton class or a nested file becomes does not depend
on the locals before it. -/
theorem exists_convert_of_closed {c : Cst}
    (h : c.type ∈ ["class", "module", "singleton_class", "program"]) :
    ∃ ns, ∀ top, convert source c top = (ns, top) := by
  have hr : c.role = .classDefinition ∨ c.role = .moduleDefinition ∨ c.role = .gate := by
    simp only [List.mem_cons, List.not_mem_nil, or_false] at h
    rw [role]
    rcases h with h | h | h | h <;> rw [h] <;> decide
  rcases hr with hr | hr | hr
  · exact ⟨_, fun top => convert_classDefinition source top hr⟩
  · exact ⟨_, fun top => convert_moduleDefinition source top hr⟩
  · exact ⟨_, fun top => convert_gate source top hr⟩

/-- What a method becomes does not depend on the locals before it, but for its owner,
which comes first. -/
theorem exists_convert_of_method {c : Cst} (h : c.type ∈ ["method", "singleton_method"]) :
    ∃ header inner, ∀ top,
      (convert source c top).1 = [.mk header ((c.owner source top).map .node ++ inner)] :=
  ⟨_, _, fun top =>
    congrArg Prod.fst (convert_method source (role_eq_methodDefinition h) top)⟩

end Cst

/-- **Scopes.** From any state with an open scope, the machine converts any grammar
node, as a part or into one place, and then as many scopes are open as before: all
but the innermost are what they were, and the innermost has kept its locals. A class,
a module, a singleton class, a nested file and a block leave it as it was, and a
method leaves in it what its owner alone would. So while a source file is simplified
no local is declared outside of every scope. And no local crosses from one definition
into the next: what a definition becomes is the same whatever locals are known before
it, but for the owner of a method. -/
theorem Machine.scopes_after_convert (source : List UInt8) :
    (∀ (c : Cst) (top : NameSet) (below : Scopes), ∃ made after,
      Takes source [.convert c] (top :: below) made (after :: below) ∧
      Takes source [.slot c] (top :: below) [Child.single (c.header .other none) made]
        (after :: below) ∧
      (∀ name ∈ top, name ∈ after) ∧
      (c.type ∈ ["class", "module", "singleton_class", "program", "block", "do_block",
        "lambda"] → after = top) ∧
      (c.type ∈ ["method", "singleton_method"] →
        (c.child? "object" = none → after = top) ∧
        ∀ owner, c.child? "object" = some owner →
          ∃ made', Takes source [.convert owner] (top :: below) made' (after :: below))) ∧
    (∀ (root : Cst) (m : Machine) (names : List String) (rest : List Step),
      Reaches source ⟨root.programSteps, [], [], []⟩ m → m.steps = .declare names :: rest →
      m.scopes ≠ []) ∧
    (∀ c : Cst, c.type ∈ ["class", "module", "singleton_class", "program"] →
      ∃ made, ∀ top below,
        Takes source [.convert c] (top :: below) made (top :: below)) ∧
    (∀ c : Cst, c.type ∈ ["method", "singleton_method"] →
      ∃ header inner, ∀ top below,
        (c.child? "object" = none →
          Takes source [.convert c] (top :: below) [.node (.mk header inner)]
            (top :: below)) ∧
        ∀ owner, c.child? "object" = some owner → ∃ made after,
          Takes source [.convert owner] (top :: below) made (after :: below) ∧
          Takes source [.convert c] (top :: below) [.node (.mk header (made ++ inner))]
            (after :: below)) := by
  refine ⟨?_, ?_, ?_, ?_⟩
  · intro c top below
    refine ⟨_, _, Cst.takes_convert source c top below, Cst.takes_slot source c top below,
      fun name => Cst.mem_locals_convert source, Cst.locals_convert_of_scoped source top, ?_⟩
    intro hmethod
    refine ⟨Cst.locals_convert_of_ownerless source top hmethod, fun owner howner => ?_⟩
    rw [Cst.locals_convert_of_owner source top hmethod howner]
    exact ⟨_, Cst.takes_convert source owner top below⟩
  · intro root m names rest hreach hsteps hscopes
    refine hreach.advance_ne_error (Cst.run_programSteps source root) .declaredOutside ?_
    simp only [advance, hsteps, hscopes]
    rfl
  · intro c hclosed
    obtain ⟨ns, hconvert⟩ := Cst.exists_convert_of_closed source hclosed
    refine ⟨ns.map .node, fun top below => ?_⟩
    have htakes := Cst.takes_convert source c top below
    rw [hconvert top] at htakes
    exact htakes
  · intro c hmethod
    obtain ⟨header, inner, hconvert⟩ := Cst.exists_convert_of_method source hmethod
    refine ⟨header, inner, fun top below => ?_⟩
    have htakes := Cst.takes_convert source c top below
    rw [Cst.Made.children, hconvert top, Cst.owner] at htakes
    constructor
    · intro howner
      rw [Cst.locals_convert_of_ownerless source top hmethod howner, howner] at htakes
      exact htakes
    · intro owner howner
      rw [Cst.locals_convert_of_owner source top hmethod howner, howner] at htakes
      exact ⟨_, _, Cst.takes_convert source owner top below, htakes⟩

end RubySmells
