import RubySmells.Proofs.Traversal

/-!
# What the rules see of a node

A rule reads little of a node: its header, its pieces of text, its mass, the
variable that it tests if it tests one, and whether it starts a chain of calls.
Nodes that agree in this give the same findings in the same frame
(`Rule.finding_congr`), and do the same to a frame (`Node.LooksLike.apply`).

A run prints what is found at its stops and nothing else (`Walk.run_findings`),
so two trees whose stops look alike one by one are reported on in the same way.
-/

namespace RubySmells

/-- The name of the variable that is the whole test of a conditional. -/
def Node.testedVariable? (n : Node) : Option String :=
  (n.test?.filter (·.kind = .localVariable)).bind Node.name

/-- Two nodes agree in what every rule but the one on chains reads of them. -/
structure Node.LooksLike (n n' : Node) : Prop where
  header : n.header = n'.header
  texts : n.texts = n'.texts
  mass : n.mass = n'.mass
  tested : n.testedVariable? = n'.testedVariable?

section LooksLike

variable {n n' : Node} (h : n.LooksLike n')

include h

theorem Node.LooksLike.kind : n.kind = n'.kind := congrArg Header.kind h.header

theorem Node.LooksLike.name : n.name = n'.name := congrArg Header.name h.header

theorem Node.LooksLike.line : n.line = n'.line := congrArg Header.line h.header

theorem Node.LooksLike.apply (f : Frame) : f.apply n = f.apply n' := by
  unfold Frame.apply
  rw [h.kind, h.name, h.texts]

theorem Node.LooksLike.opens (nested : Bool) : n.opens nested = n'.opens nested := by
  rw [Node.opens, Node.opens, h.kind]

theorem Rule.issue_congr (rule : Rule) (f : Frame) : rule.issue n f = rule.issue n' f := by
  cases rule <;> simp only [Rule.issue, Issue.located, h.line, h.mass]

end LooksLike

/-- The rule on tests reports if a live parameter is the whole test. -/
theorem Rule.booleanArgument_reports (n : Node) (last : Option String) (f : Frame) :
    (Rule.booleanArgument.concerns n &&
      Rule.booleanArgument.fires n { lastDemeterMethod := last } f) =
      n.testedVariable?.any fun name => decide (name ∈ f.live) := by
  simp only [Rule.concerns, Rule.fires, Rule.testsLive, Node.testedVariable?]
  cases n.test? with
  | none => rfl
  | some t => by_cases ht : t.kind = .localVariable <;> simp [ht, Option.filter]

/-- Nodes that look alike give the same findings; the rule on chains also reads
whether they start one. -/
theorem Rule.finding_congr {rule : Rule} {n n' : Node} (h : n.LooksLike n')
    (hchain : rule = .lawOfDemeter → n.isChain = n'.isChain) (last : Option String)
    (f : Frame) : rule.finding last n f = rule.finding last n' f := by
  have hreports : (rule.concerns n && rule.fires n { lastDemeterMethod := last } f) =
      (rule.concerns n' && rule.fires n' { lastDemeterMethod := last } f) := by
    cases rule with
    | booleanArgument =>
        rw [Rule.booleanArgument_reports, Rule.booleanArgument_reports, h.tested]
    | tooManyArguments =>
        show (decide (maxArguments < n.texts.length) && true) = _
        rw [h.texts]
        rfl
    | complexity =>
        show (decide (maxMass < n.mass) && true) = _
        rw [h.mass]
        rfl
    | lawOfDemeter =>
        have hconcerns : Rule.lawOfDemeter.concerns n = Rule.lawOfDemeter.concerns n' :=
          hchain rfl
        rw [hconcerns]
        rfl
  rw [Rule.finding, Rule.finding, hreports, Rule.issue_congr h]

/-- A run prints what is found at its stops, one stop after the other. -/
theorem Walk.run_findings (path : String) (nested : Bool) (tree : Node) :
    ∃ w, run path nested tree = .ok w ∧
      w.issues = (Stop.findings none (tree.stops nested {})).filterMap id ∧
      w.output = String.join (w.issues.map (Issue.print path)) := by
  obtain ⟨w, hrun, hadds, -, hagree⟩ := run_stops path nested tree
  have hissues : w.issues = (visits path nested tree).filterMap (·.found) := by
    rw [hadds.issues]
    rfl
  refine ⟨w, hrun, ?_, ?_⟩
  · rw [hissues, ← hagree.found, List.filterMap_map]
    rfl
  · rw [hadds.output, hissues]
    exact String.empty_append

end RubySmells
