import Mathlib.Data.List.Forall2
import RubySmells.Proofs.Counting
import RubySmells.Proofs.Likeness

/-!
# Long lists and large methods

Two rules look at sizes and at nothing else: the one on parameter lists and the one on
methods. So what they report of a tree is settled by the tree alone, in both modes:
one issue for each long list and for each large method, in pre-order
(`Walk.sizes_reported`).

The rule on methods asks for a mass, and the answers are remembered. `Walk.loopAsking` is
the walk with these questions; whatever is remembered before it, as long as it is right,
it does what the walk does that knows all masses (`Walk.loopAsking_eq`).
-/

namespace RubySmells

/-! ## Walks that ask for masses -/

/-- What is said of a method of a given mass, in the class and method of a frame. -/
def Rule.complexityMessage (mass : Nat) (f : Frame) : String :=
  "Warning, the method " ++ Issue.shown f.methodName ++ " in " ++ Issue.shown f.className ++
    " is too complex (mass: " ++ toString mass ++ ")"

/-- Runs the rule on large methods on a node of a given mass. -/
def Rule.checkMass (mass : Nat) (node : Node) : Action (Option Issue) :=
  if maxMass < mass then do
    let frame ← Context.current
    return some { complexity.issue node frame with message := complexityMessage mass frame }
  else return none

/-- Given its own mass, a node is judged as it is. -/
theorem Rule.checkMass_mass (node : Node) :
    Rule.checkMass node.mass node = Rule.complexity.check node := by
  have hconcerns : Rule.complexity.concerns node = decide (Rule.maxMass < node.mass) := rfl
  unfold Rule.checkMass Rule.check
  rw [hconcerns]
  by_cases hlarge : Rule.maxMass < node.mass
  · rw [if_pos hlarge, if_pos (decide_eq_true hlarge)]
    funext ctx
    obtain ⟨nested, last, frames⟩ := ctx
    cases frames <;> rfl
  · rw [if_neg hlarge, if_neg (by simpa using hlarge)]
    rfl

namespace Walk

/-- Visits a node, where a given piece of work stands for going into it and running the
rule. -/
def visitBy (work : Action (Option Issue)) (path : String) (node : Node) (w : Walk) :
    Except Fault Walk :=
  let w := w.log (visitLine node)
  match work w.context with
  | (.ok (some issue), ctx) => .ok ({ w with context := ctx }.report path issue)
  | (.ok none, ctx) => .ok { w with context := ctx }
  | (.error fault, _) => .error fault

theorem visitBy_inspect (path : String) (node : Node) (w : Walk) :
    visitBy (inspect node) path node w = visit path node w := rfl

/-- The work at a place, and the masses remembered after it. At a method the mass is
asked for. -/
def inspectAsking? (masses : MassCache) (l : Located) :
    Option (Action (Option Issue) × MassCache) :=
  if l.node.kind = .methodDefinition then
    (masses.query? l).map fun answer =>
      (do Context.enter l.node; Rule.checkMass answer.1 l.node, answer.2)
  else some (inspect l.node, masses)

/-- Right masses make no difference to what is done at a place. -/
theorem exists_inspectAsking? {tree : Node} {masses : MassCache} (h : masses.Correct tree)
    {l : Located} (hl : l ∈ tree.places) :
    ∃ after, inspectAsking? masses l = some (inspect l.node, after) ∧ after.Correct tree := by
  by_cases hkind : l.node.kind = .methodDefinition
  · obtain ⟨after, hquery, hafter, -⟩ := MassCache.exists_query? h hl
    refine ⟨after, ?_, hafter⟩
    rw [inspectAsking?, if_pos hkind, hquery, Option.map_some, Rule.checkMass_mass, inspect, hkind]
    rfl
  · exact ⟨masses, by rw [inspectAsking?, if_neg hkind], h⟩

end Walk

/-- A thing left to do at a place. -/
inductive PlacedTask
  | visit (l : Located)
  | leave (l : Located)

namespace PlacedTask

def place : PlacedTask → Located
  | .visit l => l
  | .leave l => l

/-- The task, wherever it is to be done. -/
def task : PlacedTask → Task
  | .visit l => .visit l.node
  | .leave l => .leave l.node

theorem map_task_below (l : Located) (rest : List PlacedTask) :
    (l.below.map visit ++ leave l :: rest).map task =
      l.node.nodes.map .visit ++ .leave l.node :: rest.map task := by
  rw [List.map_append, List.map_map, ← Located.map_node_below, List.map_map]
  rfl

end PlacedTask

namespace Walk

/-- Does the tasks in order, asking for the masses of methods. There is no outcome if a
child node is without its mass when a node is counted. -/
def loopAsking (path : String) :
    List PlacedTask → Walk → MassCache → Option (Except Fault Walk × MassCache)
  | [], w, masses => some (.ok w, masses)
  | .visit l :: rest, w, masses =>
    match inspectAsking? masses l with
    | none => none
    | some (work, masses) =>
      match visitBy work path l.node w with
      | .ok w => loopAsking path (l.below.map .visit ++ .leave l :: rest) w masses
      | .error fault => some (.error fault, masses)
  | .leave l :: rest, w, masses =>
    match leave l.node w with
    | .ok w => loopAsking path rest w masses
    | .error fault => some (.error fault, masses)
  termination_by tasks => work (tasks.map PlacedTask.task)
  decreasing_by
    · rw [PlacedTask.map_task_below]
      exact work_visit l.node (rest.map PlacedTask.task)
    · exact work_leave l.node (rest.map PlacedTask.task)

/-- Checks the tree of a file, given the masses remembered before. -/
def runAsking (path : String) (nested : Bool) (tree : Node) (masses : MassCache) :
    Option (Except Fault Walk × MassCache) :=
  loopAsking path [.visit ⟨[], tree⟩] (start nested) masses

/-- Right masses make no difference to a walk, and are right after it. -/
theorem loopAsking_eq (path : String) {tree : Node} {tasks : List PlacedTask} (w : Walk)
    {masses : MassCache} (h : masses.Correct tree)
    (htasks : ∀ t ∈ tasks, t.place ∈ tree.places) :
    ∃ after, loopAsking path tasks w masses =
        some (loop path (tasks.map PlacedTask.task) w, after) ∧ after.Correct tree := by
  fun_induction loopAsking path tasks w masses with
  | case1 w masses => exact ⟨masses, by rw [List.map_nil, loop], h⟩
  | case2 l rest w masses hnone =>
      obtain ⟨after, hsome, -⟩ := exists_inspectAsking? h (htasks _ List.mem_cons_self)
      exact absurd (hnone.symm.trans hsome) (by simp)
  | case3 l rest w masses work mid hwork w' hvisit ih =>
      have hl : l ∈ tree.places := htasks _ List.mem_cons_self
      obtain ⟨mid', hwork', hmid⟩ := exists_inspectAsking? h hl
      obtain ⟨rfl, rfl⟩ := Prod.mk.inj (Option.some.inj (hwork.symm.trans hwork'))
      -- The places below `l` are places of the tree as well.
      have hmore : ∀ t ∈ l.below.map PlacedTask.visit ++ .leave l :: rest,
          t.place ∈ tree.places := by
        intro t ht
        rcases List.mem_append.1 ht with ht | ht
        · obtain ⟨b, hb, rfl⟩ := List.mem_map.1 ht
          exact Node.mem_places_of_mem_below hl hb
        · rcases List.mem_cons.1 ht with rfl | ht
          · exact hl
          · exact htasks t (List.mem_cons_of_mem _ ht)
      obtain ⟨after, hloop, hafter⟩ := ih hmid hmore
      refine ⟨after, ?_, hafter⟩
      rw [hloop, PlacedTask.map_task_below, List.map_cons, PlacedTask.task, loop_visit_eq,
        ← visitBy_inspect, hvisit]
      rfl
  | case4 l rest w masses work mid hwork fault hvisit =>
      have hl : l ∈ tree.places := htasks _ List.mem_cons_self
      obtain ⟨mid', hwork', hmid⟩ := exists_inspectAsking? h hl
      obtain ⟨rfl, rfl⟩ := Prod.mk.inj (Option.some.inj (hwork.symm.trans hwork'))
      refine ⟨mid, ?_, hmid⟩
      rw [List.map_cons, PlacedTask.task, loop_visit_eq, ← visitBy_inspect, hvisit]
      rfl
  | case5 l rest w masses w' hleave ih =>
      obtain ⟨after, hloop, hafter⟩ := ih h fun t ht => htasks t (List.mem_cons_of_mem _ ht)
      refine ⟨after, ?_, hafter⟩
      rw [hloop, List.map_cons, PlacedTask.task, loop_leave_eq, hleave]
      rfl
  | case6 l rest w masses fault hleave =>
      refine ⟨masses, ?_, h⟩
      rw [List.map_cons, PlacedTask.task, loop_leave_eq, hleave]
      rfl

/-- A walk that asks for masses comes to the same end as the one that knows them all. -/
theorem exists_runAsking (path : String) (nested : Bool) {tree : Node} {masses : MassCache}
    (h : masses.Correct tree) :
    ∃ after, runAsking path nested tree masses = some (run path nested tree, after) ∧
      after.Correct tree :=
  loopAsking_eq path (start nested) h fun _ ht =>
    List.mem_singleton.1 ht ▸ tree.root_mem_places

end Walk

/-! ## What the rules on sizes report -/

theorem Rule.ofKind?_eq_tooManyArguments {kind : Kind} :
    Rule.ofKind? kind = some .tooManyArguments ↔ kind = .parameterList := by
  cases kind <;> simp [Rule.ofKind?]

theorem Rule.ofKind?_eq_complexity {kind : Kind} :
    Rule.ofKind? kind = some .complexity ↔ kind = .methodDefinition := by
  cases kind <;> simp [Rule.ofKind?]

namespace Node

/-- The parameter lists of a tree that are too long, in pre-order. -/
def longLists (tree : Node) : List Located :=
  tree.places.filter fun p => p.node.kind = .parameterList ∧ 3 < p.node.texts.length

/-- The methods of a tree that are too large, in pre-order. Nodes in methods inside a
method count for both. -/
def largeMethods (tree : Node) : List Located :=
  tree.places.filter fun p => p.node.kind = .methodDefinition ∧ 40 < p.node.places.length

theorem longLists_eq (tree : Node) :
    tree.longLists = tree.places.filter fun p =>
      Rule.ofKind? p.node.kind = some .tooManyArguments ∧
        Rule.tooManyArguments.concerns p.node = true := by
  refine List.filter_congr fun p _ => decide_eq_decide.2 ?_
  rw [Rule.ofKind?_eq_tooManyArguments, Rule.concerns, decide_eq_true_iff, Rule.maxArguments]

theorem largeMethods_eq (tree : Node) :
    tree.largeMethods = tree.places.filter fun p =>
      Rule.ofKind? p.node.kind = some .complexity ∧ Rule.complexity.concerns p.node = true := by
  refine List.filter_congr fun p _ => decide_eq_decide.2 ?_
  rw [Rule.ofKind?_eq_complexity, Rule.concerns, decide_eq_true_iff, Rule.maxMass,
    Node.length_places]

end Node

theorem Rule.rule_issue (rule : Rule) (n : Node) (f : Frame) :
    (rule.issue n f).rule = rule.label := by
  cases rule <;> rfl

/-- A finding goes under the name of a rule only if it is that of the rule. -/
theorem Node.filter_finding_label (rule : Rule) (last : Option String) (n : Node) (f : Frame) :
    (n.finding last f).filter (·.rule = rule.label) =
      if Rule.ofKind? n.kind = some rule then rule.finding last n f else none := by
  rw [Node.finding]
  cases Rule.ofKind? n.kind with
  | none => rfl
  | some other =>
      rw [Option.bind_some, Rule.finding, Rule.finding]
      by_cases hother : other = rule
      · subst hother
        rw [if_pos rfl]
        split <;> simp [Option.filter, Rule.rule_issue]
      · have hlabel : other.label ≠ rule.label := fun h => hother (Rule.label_injective h)
        rw [if_neg fun h => hother (Option.some.inj h)]
        split <;> simp [Option.filter, Rule.rule_issue, hlabel]

/-- Of what is found at several stops, a rule that looks at nothing but the node
contributes one issue for each node that concerns it. -/
theorem Stop.filter_findings_label {rule : Rule}
    (hfires : ∀ n ctx f, rule.fires n ctx f = true) (last : Option String) (ss : List Stop) :
    ((findings last ss).filterMap id).filter (·.rule = rule.label) =
      (ss.filter fun s =>
        Rule.ofKind? s.place.node.kind = some rule ∧ rule.concerns s.place.node = true).map
          fun s => rule.issue s.place.node s.frame := by
  induction ss generalizing last with
  | nil => rfl
  | cons s ss ih =>
      have hown := Node.filter_finding_label rule last s.place.node s.frame
      rw [Rule.finding, hfires, Bool.and_true] at hown
      rw [findings]
      by_cases hc : Rule.ofKind? s.place.node.kind = some rule ∧
          rule.concerns s.place.node = true
      · rw [if_pos hc.1, if_pos hc.2] at hown
        obtain ⟨hfound, hlabel⟩ := Option.filter_eq_some_iff.1 hown
        rw [hfound, List.filterMap_cons_some (f := id) rfl, List.filter_cons, if_pos hlabel, ih,
          List.filter_cons_of_pos (by simpa using hc), List.map_cons]
      · have hnone : (s.place.node.finding last s.frame).filter (·.rule = rule.label) = none := by
          rw [hown]
          split
          · rename_i hkind
            exact if_neg fun hconcerns => hc ⟨hkind, hconcerns⟩
          · rfl
        rw [List.filter_cons_of_neg (by simpa using hc), ← ih]
        cases hfound : s.place.node.finding last s.frame with
        | none => rw [List.filterMap_cons_none (f := id) rfl]
        | some issue =>
            rw [hfound, Option.filter_eq_none_iff] at hnone
            rw [List.filterMap_cons_some (f := id) rfl, List.filter_cons, if_neg (hnone issue rfl)]

/-- The frame at a stop is one to which the node there has just been applied. -/
theorem Node.exists_frame_of_mem_stops {nested : Bool} {n : Node} {f : Frame} {s : Stop}
    (h : s ∈ n.stops nested f) : ∃ g : Frame, s.frame = g.apply s.place.node := by
  induction n using Node.induction generalizing f s with
  | step n ih =>
      rw [Node.stops] at h
      rcases List.mem_cons.1 h with rfl | h
      · exact ⟨f, rfl⟩
      · obtain ⟨i, c, hc, r, hr, rfl⟩ := Node.mem_stopsFrom h
        obtain ⟨g, hg⟩ := ih c (List.mem_of_getElem? hc) hr
        exact ⟨g, hg⟩

/-- At a method its own name is the name of the method. -/
theorem Node.methodName_frameAt {nested : Bool} {tree : Node} {p : Located}
    (hp : p ∈ tree.places) (hkind : p.node.kind = .methodDefinition) :
    (tree.frameAt nested p.address).methodName = p.node.name := by
  have hstop : ⟨p, tree.frameAt nested p.address⟩ ∈ tree.stops nested {} := by
    rw [Node.stops_eq]
    exact List.mem_map_of_mem hp
  obtain ⟨g, hg⟩ := Node.exists_frame_of_mem_stops hstop
  have hg : tree.frameAt nested p.address = g.apply p.node := hg
  rw [hg, Frame.apply, hkind]

namespace Walk

/-- What a run reports by a rule that looks at nothing but the node. -/
theorem filter_issues_label (rule : Rule) (hfires : ∀ n ctx f, rule.fires n ctx f = true)
    {path : String} {nested : Bool} {tree : Node} {w : Walk} (h : run path nested tree = .ok w) :
    w.issues.filter (·.rule = rule.label) =
      (tree.places.filter fun p =>
        Rule.ofKind? p.node.kind = some rule ∧ rule.concerns p.node = true).map
          fun p => rule.issue p.node (tree.frameAt nested p.address) := by
  obtain ⟨w', hrun, hissues, -⟩ := run_findings path nested tree
  obtain rfl := Except.ok.inj (h.symm.trans hrun)
  rw [hissues, Stop.filter_findings_label hfires, Node.stops_eq, List.filter_map, List.map_map]
  rfl

/-- **Sizes.** In either mode, and whatever right masses are remembered before, a run
reports each parameter list with more than three parameters and each method with more
than forty nodes, once and in pre-order, and no others by these two rules. An issue is
on the line of its node; that on a method bears the name of the method, and tells
the number of its nodes. -/
theorem sizes_reported (path : String) (nested : Bool) (tree : Node) {masses : MassCache}
    (h : masses.Correct tree) :
    ∃ w after, runAsking path nested tree masses = some (.ok w, after) ∧
      run path nested tree = .ok w ∧ after.Correct tree ∧
      List.Forall₂ (fun p issue => issue.line = p.node.line)
        tree.longLists (w.issues.filter (·.rule = "too_many_arguments")) ∧
      List.Forall₂ (fun p issue => issue.line = p.node.line ∧ issue.methodName = p.node.name ∧
          issue.message = "Warning, the method " ++ Issue.shown p.node.name ++ " in " ++
            Issue.shown issue.className ++ " is too complex (mass: " ++
              toString p.node.places.length ++ ")")
        tree.largeMethods (w.issues.filter (·.rule = "complexity")) := by
  obtain ⟨after, hasking, hafter⟩ := exists_runAsking path nested h
  obtain ⟨w, hrun, -⟩ := run_findings path nested tree
  rw [hrun] at hasking
  refine ⟨w, after, hasking, hrun, hafter, ?_, ?_⟩
  · have hissues : w.issues.filter (·.rule = "too_many_arguments") = _ :=
      filter_issues_label .tooManyArguments (fun _ _ _ => rfl) hrun
    rw [hissues, ← Node.longLists_eq, List.forall₂_map_right_iff, List.forall₂_same]
    exact fun p _ => rfl
  · have hissues : w.issues.filter (·.rule = "complexity") = _ :=
      filter_issues_label .complexity (fun _ _ _ => rfl) hrun
    rw [hissues, ← Node.largeMethods_eq, List.forall₂_map_right_iff, List.forall₂_same]
    intro p hp
    obtain ⟨hp, hlarge⟩ := List.mem_filter.1 hp
    have hname : (tree.frameAt nested p.address).methodName = p.node.name :=
      Node.methodName_frameAt hp (of_decide_eq_true hlarge).1
    refine ⟨rfl, hname, ?_⟩
    rw [← hname, Node.length_places]
    rfl

end Walk

/-- A method `m` with four parameters, over forty literals on the line below. -/
def Node.fortyLiterals : Node :=
  .mk { kind := .program }
    [.node (.mk { kind := .methodDefinition, name := "m", line := 1 }
      (.node (.mk { kind := .parameterList, line := 1 }
        [.text "a", .text "b", .text "c", .text "d"]) ::
        List.replicate 40 (.node (.mk { kind := .literal, line := 2 } [.text "1"]))))]

/-- The parameter list and the method are reported, also where the mass of the list has
been asked for before. -/
theorem Walk.sizes_reported_fortyLiterals :
    (MassCache.empty.record [0, 0] 1).Correct .fortyLiterals ∧
    ∀ nested, ∃ w after,
      runAsking "a.rb" nested .fortyLiterals (MassCache.empty.record [0, 0] 1) =
        some (.ok w, after) ∧
      (w.issues.filter (·.rule = "too_many_arguments")).map (·.line) = [1] ∧
      (w.issues.filter (·.rule = "complexity")).map (fun issue => (issue.line, issue.methodName)) =
        [(1, some "m")] := by
  have hlist : ⟨[0, 0], .mk { kind := .parameterList, line := 1 }
      [.text "a", .text "b", .text "c", .text "d"]⟩ ∈ Node.fortyLiterals.places := by
    simp [Node.fortyLiterals, Node.places, Child.placesFrom, Located.under]
  have hcorrect := (MassCache.correct_empty .fortyLiterals).record hlist
  refine ⟨hcorrect, fun nested => ?_⟩
  obtain ⟨w, after, hasking, -, -, hlong, hlarge⟩ := sizes_reported "a.rb" nested _ hcorrect
  refine ⟨w, after, hasking, ?_, ?_⟩
  · have hlines : Node.fortyLiterals.longLists.map (·.node.line) = [1] := by decide +kernel
    rw [← hlines, ← List.forall₂_eq_eq_eq, List.forall₂_map_left_iff, List.forall₂_map_right_iff]
    exact hlong.flip
  · have hnames : Node.fortyLiterals.largeMethods.map (fun p => (p.node.line, p.node.name)) =
        [(1, some "m")] := by decide +kernel
    rw [← hnames, ← List.forall₂_eq_eq_eq, List.forall₂_map_left_iff, List.forall₂_map_right_iff]
    exact hlarge.flip.imp fun issue p h => Prod.ext h.1 h.2.1

end RubySmells
