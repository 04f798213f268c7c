import RubySmells.Proofs.Likeness

/-!
# Neighbours that trade places

Classes, methods and blocks have a frame of their own, which is dropped after
them, so in nested mode they neither see nor touch what their neighbours do.
Trading the places of two of them that stand next to each other, anywhere in a
tree and any number of times (`Node.Exchanges`), changes little of what a run
reports:

* **nothing is lost or added** — but for the rule on chains, which remembers
  the last chain it met, the reports are the same up to their order;
* **elsewhere nothing moves** — what is reported at places outside of the trees
  that changed places is the same, in the same order.

`Node.steadyReports` is what the other three rules report, by recursion on the
tree; it is what is left of `Walk.reports` without the rule on chains
(`Walk.filter_reports`).
-/

namespace RubySmells

/-! ## Exchanges -/

/-- Which nodes trade places: two child nodes that follow one another, by the
address of their parent and the position of the first. -/
structure Exchange where
  parent : Address
  position : Nat
  deriving DecidableEq, Repr

/-- Whether a place is in one of the two trees that trade places. -/
def Exchange.Moves (e : Exchange) (a : Address) : Prop :=
  e.parent ++ [e.position] <+: a ∨ e.parent ++ [e.position + 1] <+: a

instance (e : Exchange) (a : Address) : Decidable (e.Moves a) :=
  inferInstanceAs (Decidable (_ ∨ _))

/-- One exchange of two neighbours that have a frame of their own; there may be text
between them, but no node. -/
inductive Node.Exchanged : Exchange → Node → Node → Prop
  | here (before between after : List Child) {h : Header} {a b : Node}
      (ha : Context.framed a.kind = true) (hb : Context.framed b.kind = true)
      (hbetween : between.filterMap Child.node? = []) :
      Exchanged ⟨[], (before.filterMap Child.node?).length⟩
        (.mk h (before ++ .node a :: (between ++ .node b :: after)))
        (.mk h (before ++ .node b :: (between ++ .node a :: after)))
  | inside (before after : List Child) {e : Exchange} {n n' : Node} {h : Header} :
      Exchanged e n n' →
      Exchanged ⟨(before.filterMap Child.node?).length :: e.parent, e.position⟩
        (.mk h (before ++ .node n :: after)) (.mk h (before ++ .node n' :: after))

/-- Any number of exchanges, one after the other. -/
inductive Node.Exchanges : List Exchange → Node → Node → Prop
  | nil (n : Node) : Exchanges [] n n
  | cons {e : Exchange} {es : List Exchange} {n m n' : Node} :
      Exchanged e n m → Exchanges es m n' → Exchanges (e :: es) n n'

/-! ## What an exchange leaves alone -/

theorem Node.nodes_mk_append (h : Header) (before after : List Child) (n : Node) :
    (Node.mk h (before ++ .node n :: after)).nodes =
      before.filterMap Child.node? ++ n :: after.filterMap Child.node? := by
  rw [Node.nodes, Node.children, List.filterMap_append, List.filterMap_cons]
  rfl

theorem Child.texts_cons_node (n : Node) (cs : List Child) :
    (Child.node n :: cs).filterMap Child.text? = cs.filterMap Child.text? := rfl

/-- A node with a frame of its own is no variable. -/
theorem Node.kind_ne_localVariable {n : Node} (h : Context.framed n.kind = true) :
    n.kind ≠ .localVariable := by
  intro hk
  rw [hk] at h
  exact absurd h (by decide)

theorem Node.testedVariable?_mk_cons (h : Header) (n : Node) (cs : List Child) :
    (Node.mk h (.node n :: cs)).testedVariable? =
      if n.kind = .localVariable then n.name else none := by
  by_cases hn : n.kind = .localVariable <;>
    simp [Node.testedVariable?, Node.test?, Node.firstNode?, Node.children, Child.node?,
      Option.filter, hn]

/-- Of the first child of a node, the rule on tests sees nothing but a variable. -/
theorem Node.testedVariable?_congr {h : Header} {n n' : Node}
    (hn : n.header = n'.header ∨
      Context.framed n.kind = true ∧ Context.framed n'.kind = true)
    (before after after' : List Child) :
    (Node.mk h (before ++ .node n :: after)).testedVariable? =
      (Node.mk h (before ++ .node n' :: after')).testedVariable? := by
  cases before with
  | cons c before => rfl
  | nil =>
      rw [List.nil_append, List.nil_append, Node.testedVariable?_mk_cons,
        Node.testedVariable?_mk_cons]
      rcases hn with hheader | ⟨hn, hn'⟩
      · rw [Node.kind, Node.name, hheader]
        rfl
      · rw [if_neg (Node.kind_ne_localVariable hn), if_neg (Node.kind_ne_localVariable hn')]

/-- No rule but the one on chains can tell a tree from the one with neighbours that
traded places. -/
theorem Node.Exchanged.looksLike {e : Exchange} {n n' : Node} (h : n.Exchanged e n') :
    n.LooksLike n' := by
  induction h with
  | @here before between after h a b ha hb hbetween =>
      refine ⟨rfl, ?_, ?_, Node.testedVariable?_congr (.inr ⟨ha, hb⟩) before _ _⟩
      · simp only [Node.texts, Node.children, List.filterMap_append, Child.texts_cons_node]
      · simp only [Node.mass_eq, Node.nodes_mk_append, List.filterMap_append, hbetween,
          List.filterMap_cons, Child.node?, List.nil_append, Node.totalMass_append,
          Node.totalMass_cons]
        omega
  | @inside before after e n n' h _ ih =>
      refine ⟨rfl, ?_, ?_, Node.testedVariable?_congr (.inl ih.header) before _ _⟩
      · simp only [Node.texts, Node.children, List.filterMap_append, Child.texts_cons_node]
      · simp only [Node.mass_eq (.mk _ _), Node.nodes_mk_append, Node.totalMass_append,
          Node.totalMass_cons, ih.mass]

theorem Frame.acrossAll_cons_of_framed {n : Node} (h : Context.framed n.kind = true)
    (ns : List Node) (f : Frame) :
    Frame.acrossAll true (n :: ns) f = Frame.acrossAll true ns f := by
  rw [Frame.acrossAll, Frame.across_of_framed h]

/-- An exchange makes no difference to what comes after the tree. -/
theorem Node.Exchanged.across {e : Exchange} {n n' : Node} (h : n.Exchanged e n') (f : Frame) :
    Frame.across true n f = Frame.across true n' f := by
  have hlike := h.looksLike
  induction h generalizing f with
  | @here before between after h a b ha hb hbetween =>
      rw [Frame.across, Frame.across, hlike.opens, hlike.apply]
      simp only [Node.nodes_mk_append, List.filterMap_append, hbetween, List.filterMap_cons,
        Child.node?, List.nil_append, Frame.acrossAll_append,
        Frame.acrossAll_cons_of_framed ha, Frame.acrossAll_cons_of_framed hb]
  | @inside before after e n n' h hinside ih =>
      rw [Frame.across, Frame.across, hlike.opens, hlike.apply]
      simp only [Node.nodes_mk_append, Frame.acrossAll_append, Frame.acrossAll,
        fun f => ih f hinside.looksLike]

/-! ## Reports -/

/-- Whether an issue is of one of the three rules that keep nothing in mind. -/
def Issue.isSteady (issue : Issue) : Bool :=
  decide (issue.rule ∈
    [Rule.tooManyArguments.label, Rule.booleanArgument.label, Rule.complexity.label])

/-- What a run reports, and at which places. -/
def Walk.reports (path : String) (nested : Bool) (tree : Node) : List (Address × Issue) :=
  (tree.places.zip (visits path nested tree)).filterMap fun e =>
    e.2.found.map fun issue => (e.1.address, issue)

/-- What the rules that keep nothing in mind find at a node. -/
def Node.steadyFinding (n : Node) (f : Frame) : Option Issue :=
  (n.finding none f).filter Issue.isSteady

/-- What they report at a stop. -/
def Stop.steadyReport? (s : Stop) : Option (Address × Issue) :=
  (s.place.node.steadyFinding s.frame).map fun issue => (s.place.address, issue)

/-- What they report of a tree, from the innermost frame before it. -/
def Node.steadyReports (n : Node) (f : Frame) : List (Address × Issue) :=
  (n.stops true f).filterMap Stop.steadyReport?

/-- What they report of several trees that stand side by side. -/
def Node.steadyReportsFrom (i : Nat) (ns : List Node) (f : Frame) : List (Address × Issue) :=
  (Node.stopsFrom true i ns f).filterMap Stop.steadyReport?

/-- A report from a tree as one from a larger tree. -/
def Walk.reportUnder (i : Nat) (r : Address × Issue) : Address × Issue := (i :: r.1, r.2)

theorem Rule.isSteady_issue (rule : Rule) (n : Node) (f : Frame) :
    (rule.issue n f).isSteady = decide (rule ≠ .lawOfDemeter) := by
  cases rule <;> simp [Issue.isSteady, Rule.issue, Issue.located, Rule.label]

theorem Rule.filter_finding_lawOfDemeter (last : Option String) (n : Node) (f : Frame) :
    (Rule.lawOfDemeter.finding last n f).filter Issue.isSteady = none := by
  rw [Rule.finding]
  split <;> simp [Rule.isSteady_issue]

/-- Which chain was met last makes no difference to the other rules. -/
theorem Node.filter_finding (last : Option String) (n : Node) (f : Frame) :
    (n.finding last f).filter Issue.isSteady = n.steadyFinding f := by
  unfold Node.steadyFinding Node.finding
  cases Rule.ofKind? n.kind with
  | none => rfl
  | some rule =>
      cases rule with
      | lawOfDemeter =>
          rw [Option.bind_some, Option.bind_some, Rule.filter_finding_lawOfDemeter,
            Rule.filter_finding_lawOfDemeter]
      | tooManyArguments => rfl
      | booleanArgument => rfl
      | complexity => rfl

theorem Node.LooksLike.steadyFinding {n n' : Node} (h : n.LooksLike n') (f : Frame) :
    n.steadyFinding f = n'.steadyFinding f := by
  unfold Node.steadyFinding Node.finding
  rw [h.kind]
  cases Rule.ofKind? n'.kind with
  | none => rfl
  | some rule =>
      rw [Option.bind_some, Option.bind_some]
      by_cases hrule : rule = .lawOfDemeter
      · subst hrule
        rw [Rule.filter_finding_lawOfDemeter, Rule.filter_finding_lawOfDemeter]
      · rw [Rule.finding_congr h fun heq => absurd heq hrule]

/-- At stops, what is left of the findings without the rule on chains. -/
theorem Stop.filter_findings (last : Option String) (ss : List Stop) :
    (((ss.map Stop.place).zip (findings last ss)).filterMap fun e =>
        e.2.map fun issue => (e.1.address, issue)).filter (·.2.isSteady) =
      ss.filterMap steadyReport? := by
  induction ss generalizing last with
  | nil => rfl
  | cons s ss ih =>
      have hfinding := Node.filter_finding last s.place.node s.frame
      rw [List.map_cons, findings, List.zip_cons_cons, List.filterMap_cons, List.filterMap_cons,
        steadyReport?, ← hfinding]
      cases s.place.node.finding last s.frame with
      | none => exact ih _
      | some issue =>
          simp only [Option.map_some, List.filter_cons, Option.filter]
          cases issue.isSteady with
          | true => exact congrArg ((s.place.address, issue) :: ·) (ih _)
          | false => exact ih _

namespace Walk

variable (path : String) (nested : Bool) (tree : Node)

/-- What a run finds is what it reports, place by place. -/
theorem exists_run_reports :
    ∃ w, run path nested tree = .ok w ∧ w.issues = (reports path nested tree).map Prod.snd := by
  obtain ⟨w, hrun, hadds, -, hagree⟩ := run_stops path nested tree
  have hlength : (visits path nested tree).length = tree.places.length := by
    have h := congrArg List.length hagree.node
    rwa [List.length_map, List.length_map, Node.stops_eq, List.length_map] at h
  have hsnd : (tree.places.zip (visits path nested tree)).map Prod.snd =
      visits path nested tree := List.map_snd_zip (Nat.le_of_eq hlength)
  have hissue : ((fun v : Visit => v.found) ∘ Prod.snd : Located × Visit → Option Issue) =
      fun e => (e.2.found.map fun issue => (e.1.address, issue)).map Prod.snd := by
    funext e
    cases he : e.2.found <;> simp [he]
  refine ⟨w, hrun, ?_⟩
  calc w.issues = (visits path nested tree).filterMap (·.found) := by
        rw [hadds.issues]
        rfl
    _ = ((tree.places.zip (visits path nested tree)).map Prod.snd).filterMap (·.found) := by
        rw [hsnd]
    _ = (reports path nested tree).map Prod.snd := by
        rw [List.filterMap_map, hissue, reports, List.map_filterMap]

/-- Without the rule on chains, a run reports what the other rules find at its
stops. -/
theorem filter_reports :
    (reports path true tree).filter (·.2.isSteady) = tree.steadyReports {} := by
  obtain ⟨_, _, _, _, hagree⟩ := run_stops path true tree
  have hplaces : tree.places = (tree.stops true {}).map Stop.place :=
    (Node.map_place_stops true tree {}).symm
  have hreports : reports path true tree =
      ((tree.places.zip ((visits path true tree).map (·.found))).filterMap fun e =>
        e.2.map fun issue => (e.1.address, issue)) := by
    rw [List.zip_map_right, List.filterMap_map]
    rfl
  rw [hreports, hagree.found, hplaces, Stop.filter_findings, Node.steadyReports]

end Walk

/-! ### By recursion on the tree -/

theorem Node.steadyReports_eq (n : Node) (f : Frame) :
    n.steadyReports f = ((n.steadyFinding (f.apply n)).map fun issue => ([], issue)).toList ++
      Node.steadyReportsFrom 0 n.nodes (f.apply n) := by
  rw [Node.steadyReports, Node.stops, List.filterMap_cons, Node.steadyReportsFrom,
    Stop.steadyReport?]
  cases n.steadyFinding (f.apply n) <;> rfl

theorem Node.steadyReportsFrom_cons (i : Nat) (n : Node) (ns : List Node) (f : Frame) :
    Node.steadyReportsFrom i (n :: ns) f =
      (n.steadyReports f).map (Walk.reportUnder i) ++
        Node.steadyReportsFrom (i + 1) ns (Frame.across true n f) := by
  have hunder : Stop.steadyReport? ∘ Stop.under i =
      fun s => (Stop.steadyReport? s).map (Walk.reportUnder i) := by
    funext s
    simp only [Function.comp_apply, Stop.steadyReport?, Option.map_map]
    rfl
  rw [Node.steadyReportsFrom, Node.stopsFrom, List.filterMap_append, List.filterMap_map,
    Node.steadyReports, List.map_filterMap, Node.steadyReportsFrom, hunder]

theorem Node.steadyReportsFrom_append (i : Nat) (ns ms : List Node) (f : Frame) :
    Node.steadyReportsFrom i (ns ++ ms) f =
      Node.steadyReportsFrom i ns f ++
        Node.steadyReportsFrom (i + ns.length) ms (Frame.acrossAll true ns f) := by
  induction ns generalizing i f with
  | nil =>
      have hnil : Node.steadyReportsFrom i [] f = [] := by
        rw [Node.steadyReportsFrom, Node.stopsFrom]
        rfl
      rw [List.nil_append, Frame.acrossAll, hnil]
      rfl
  | cons n ns ih =>
      rw [List.cons_append, Node.steadyReportsFrom_cons, Node.steadyReportsFrom_cons, ih,
        Frame.acrossAll, List.length_cons, List.append_assoc, Nat.add_right_comm, Nat.add_assoc]

/-! ### Issues without places -/

/-- The issues of the rules that keep nothing in mind in a tree. -/
def Node.steadyIssues (n : Node) (f : Frame) : List Issue :=
  (n.steadyReports f).map Prod.snd

/-- Their issues in several trees, one tree after the other. -/
def Node.steadyIssuesAll (ns : List Node) (f : Frame) : List Issue :=
  (Node.steadyReportsFrom 0 ns f).map Prod.snd

theorem Node.map_snd_steadyReportsFrom (i : Nat) (ns : List Node) (f : Frame) :
    (Node.steadyReportsFrom i ns f).map Prod.snd = Node.steadyIssuesAll ns f := by
  have hplace : ∀ j, (Node.steadyReportsFrom i ns f).map Prod.snd =
      (Node.steadyReportsFrom j ns f).map Prod.snd := by
    induction ns generalizing i f with
    | nil =>
        intro j
        rw [Node.steadyReportsFrom, Node.steadyReportsFrom, Node.stopsFrom, Node.stopsFrom]
    | cons n ns ih =>
        intro j
        rw [Node.steadyReportsFrom_cons, Node.steadyReportsFrom_cons, List.map_append,
          List.map_append, List.map_map, List.map_map, ih (i + 1) _ (j + 1)]
        rfl
  exact hplace 0

theorem Node.steadyIssuesAll_cons (n : Node) (ns : List Node) (f : Frame) :
    Node.steadyIssuesAll (n :: ns) f =
      n.steadyIssues f ++ Node.steadyIssuesAll ns (Frame.across true n f) := by
  rw [Node.steadyIssuesAll, Node.steadyReportsFrom_cons, List.map_append, List.map_map,
    Node.map_snd_steadyReportsFrom, Node.steadyIssues]
  rfl

theorem Node.steadyIssuesAll_append (ns ms : List Node) (f : Frame) :
    Node.steadyIssuesAll (ns ++ ms) f =
      Node.steadyIssuesAll ns f ++ Node.steadyIssuesAll ms (Frame.acrossAll true ns f) := by
  rw [Node.steadyIssuesAll, Node.steadyReportsFrom_append, List.map_append,
    Node.map_snd_steadyReportsFrom, Node.map_snd_steadyReportsFrom]

theorem Node.steadyIssues_eq (n : Node) (f : Frame) :
    n.steadyIssues f = (n.steadyFinding (f.apply n)).toList ++
      Node.steadyIssuesAll n.nodes (f.apply n) := by
  rw [Node.steadyIssues, Node.steadyReports_eq, List.map_append, Node.steadyIssuesAll]
  cases n.steadyFinding (f.apply n) <;> rfl

/-! ## Reports and exchanges -/

/-- An exchange neither loses nor adds an issue. -/
theorem Node.Exchanged.perm_steadyIssues {e : Exchange} {n n' : Node} (h : n.Exchanged e n')
    (f : Frame) : (n'.steadyIssues f).Perm (n.steadyIssues f) := by
  have hlike := h.looksLike
  rw [Node.steadyIssues_eq, Node.steadyIssues_eq, ← hlike.apply, ← hlike.steadyFinding]
  refine List.Perm.append_left _ ?_
  generalize f.apply n = g
  clear hlike
  induction h generalizing g with
  | @here before between after h a b ha hb hbetween =>
      -- Both trees are gone over in the same frame, whichever comes first.
      simp only [Node.nodes_mk_append, List.filterMap_append, hbetween, List.filterMap_cons,
        Child.node?, List.nil_append, Node.steadyIssuesAll_append, Node.steadyIssuesAll_cons,
        Frame.across_of_framed ha, Frame.across_of_framed hb]
      exact (List.perm_append_comm_assoc _ _ _).append_left _
  | @inside before after e n n' h hinside ih =>
      have hlike := hinside.looksLike
      simp only [Node.nodes_mk_append, Node.steadyIssuesAll_append, Node.steadyIssuesAll_cons,
        hinside.across]
      refine (List.Perm.append_right _ ?_).append_left _
      rw [Node.steadyIssues_eq, Node.steadyIssues_eq, ← hlike.apply, ← hlike.steadyFinding]
      exact (ih _).append_left _

theorem Exchange.moves_inside {e : Exchange} {k : Nat} {a : Address} :
    Exchange.Moves ⟨k :: e.parent, e.position⟩ (k :: a) ↔ e.Moves a := by
  simp [Exchange.Moves, List.cons_prefix_cons]

/-- Nothing reported in a tree that trades places is reported elsewhere. -/
theorem Exchange.filter_reportUnder_eq_nil {i k : Nat} (h : i = k ∨ i = k + 1)
    (rs : List (Address × Issue)) :
    (rs.map (Walk.reportUnder i)).filter (fun r => ¬ Exchange.Moves ⟨[], k⟩ r.1) = [] := by
  rw [List.filter_eq_nil_iff]
  intro r hr
  obtain ⟨s, -, rfl⟩ := List.mem_map.1 hr
  rcases h with rfl | rfl <;> simp [Exchange.Moves, Walk.reportUnder, List.cons_prefix_cons]

/-- Outside of the trees that trade places, an exchange changes no report. -/
theorem Node.Exchanged.filter_steadyReports {e : Exchange} {n n' : Node}
    (h : n.Exchanged e n') (f : Frame) :
    (n'.steadyReports f).filter (fun r => ¬ e.Moves r.1) =
      (n.steadyReports f).filter fun r => ¬ e.Moves r.1 := by
  have hlike := h.looksLike
  rw [Node.steadyReports_eq, Node.steadyReports_eq, ← hlike.apply, ← hlike.steadyFinding,
    List.filter_append, List.filter_append]
  congr 1
  generalize f.apply n = g
  clear hlike
  induction h generalizing g with
  | @here before between after h a b ha hb hbetween =>
      simp only [Node.nodes_mk_append, List.filterMap_append, hbetween, List.filterMap_cons,
        Child.node?, List.nil_append, Node.steadyReportsFrom_append,
        Node.steadyReportsFrom_cons, Frame.across_of_framed ha, Frame.across_of_framed hb,
        Nat.zero_add, List.filter_append, Exchange.filter_reportUnder_eq_nil (.inl rfl),
        Exchange.filter_reportUnder_eq_nil (.inr rfl)]
  | @inside before after e n n' h hinside ih =>
      have hlike := hinside.looksLike
      have hbelow : ∀ (m : Node) (g : Frame),
          ((m.steadyReports g).map (Walk.reportUnder (before.filterMap Child.node?).length)).filter
            (fun r => ¬ Exchange.Moves
              ⟨(before.filterMap Child.node?).length :: e.parent, e.position⟩ r.1) =
          ((m.steadyReports g).filter fun r => ¬ e.Moves r.1).map
            (Walk.reportUnder (before.filterMap Child.node?).length) := by
        intro m g
        rw [List.filter_map]
        simp only [Function.comp_def, Walk.reportUnder, Exchange.moves_inside]
      simp only [Node.nodes_mk_append, Node.steadyReportsFrom_append,
        Node.steadyReportsFrom_cons, hinside.across, Nat.zero_add, List.filter_append, hbelow]
      congr 3
      rw [Node.steadyReports_eq, Node.steadyReports_eq, ← hlike.apply, ← hlike.steadyFinding,
        List.filter_append, List.filter_append, ih]

section Exchanges

variable {es : List Exchange} {tree tree' : Node} (h : tree.Exchanges es tree')

include h

theorem Node.Exchanges.perm_steadyIssues (f : Frame) :
    (tree'.steadyIssues f).Perm (tree.steadyIssues f) := by
  induction h with
  | nil n => exact .refl _
  | cons hfirst _ ih => exact ih.trans (hfirst.perm_steadyIssues f)

/-- A place outside of all trees that trade places is the same place after every
exchange. -/
theorem Node.Exchanges.filter_steadyReports (f : Frame) :
    (tree'.steadyReports f).filter (fun r => ∀ e ∈ es, ¬ e.Moves r.1) =
      (tree.steadyReports f).filter fun r => ∀ e ∈ es, ¬ e.Moves r.1 := by
  induction h with
  | nil n => rfl
  | @cons e es n m n' hfirst _ ih =>
      have hsplit : ∀ rs : List (Address × Issue),
          rs.filter (fun r => ∀ e' ∈ e :: es, ¬ e'.Moves r.1) =
            (rs.filter fun r => ¬ e.Moves r.1).filter fun r => ∀ e' ∈ es, ¬ e'.Moves r.1 := by
        intro rs
        rw [List.filter_filter]
        simp only [List.forall_mem_cons, Bool.decide_and, Bool.and_comm]
      have hcomm : ∀ rs : List (Address × Issue),
          (rs.filter fun r => ¬ e.Moves r.1).filter (fun r => ∀ e' ∈ es, ¬ e'.Moves r.1) =
            (rs.filter fun r => ∀ e' ∈ es, ¬ e'.Moves r.1).filter fun r => ¬ e.Moves r.1 := by
        intro rs
        rw [List.filter_filter, List.filter_filter]
        simp only [Bool.and_comm]
      rw [hsplit, hsplit, hcomm, ih, ← hcomm, hfirst.filter_steadyReports]

/-- **Neighbours with frames of their own.** In nested mode, trading the places of
neighbouring classes, methods and blocks, anywhere and any number of times, keeps
the issues of the rules on parameter lists, tests and sizes up to their order. What
these rules report at places outside of the trees that trade places stays as it
is, in the same order. -/
theorem Walk.steady_issues_of_exchanges (path : String) :
    ∃ w w', run path true tree = .ok w ∧ run path true tree' = .ok w' ∧
      (w'.issues.filter Issue.isSteady).Perm (w.issues.filter Issue.isSteady) ∧
      w.issues = (reports path true tree).map Prod.snd ∧
      w'.issues = (reports path true tree').map Prod.snd ∧
      (reports path true tree').filter
          (fun r => r.2.isSteady ∧ ∀ e ∈ es, ¬ e.Moves r.1) =
        (reports path true tree).filter
          (fun r => r.2.isSteady ∧ ∀ e ∈ es, ¬ e.Moves r.1) := by
  obtain ⟨w, hrun, hissues⟩ := exists_run_reports path true tree
  obtain ⟨w', hrun', hissues'⟩ := exists_run_reports path true tree'
  have hsteady : ∀ t, ((reports path true t).map Prod.snd).filter Issue.isSteady =
      t.steadyIssues {} := by
    intro t
    rw [List.filter_map, Node.steadyIssues, ← filter_reports path t]
    rfl
  have helsewhere : ∀ t, (reports path true t).filter
      (fun r => r.2.isSteady ∧ ∀ e ∈ es, ¬ e.Moves r.1) =
        (t.steadyReports {}).filter fun r => ∀ e ∈ es, ¬ e.Moves r.1 := by
    intro t
    rw [← filter_reports path t, List.filter_filter]
    simp only [Bool.decide_and, Bool.decide_eq_true, Bool.and_comm]
  refine ⟨w, w', hrun, hrun', ?_, hissues, hissues', ?_⟩
  · rw [hissues, hissues', hsteady, hsteady]
    exact h.perm_steadyIssues {}
  · rw [helsewhere, helsewhere]
    exact h.filter_steadyReports {}

end Exchanges

/-- A class over two methods, the first of which tests its parameter, a block with
four parameters after it, and a parameter list at the end. -/
def Node.classBeforeBlock : Node :=
  .mk { kind := .program }
    [.node (.mk { kind := .classDefinition, name := "C" }
      [.node (.mk { kind := .methodDefinition, name := "m" }
        [.node (.mk { kind := .parameterList } [.text "flag"]),
         .node (.mk { kind := .conditional, line := 2 }
          [.node (.mk { kind := .localVariable, name := "flag" } [.text "flag"])])]),
       .node (.mk { kind := .methodDefinition, name := "n" } [])]),
     .node (.mk { kind := .block }
      [.node (.mk { kind := .parameterList } [.text "a", .text "b", .text "c", .text "d"])]),
     .node (.mk { kind := .parameterList } [.text "a", .text "b", .text "c", .text "d"])]

/-- The same with the methods and then the class and the block exchanged. -/
def Node.blockBeforeClass : Node :=
  .mk { kind := .program }
    [.node (.mk { kind := .block }
      [.node (.mk { kind := .parameterList } [.text "a", .text "b", .text "c", .text "d"])]),
     .node (.mk { kind := .classDefinition, name := "C" }
      [.node (.mk { kind := .methodDefinition, name := "n" } []),
       .node (.mk { kind := .methodDefinition, name := "m" }
        [.node (.mk { kind := .parameterList } [.text "flag"]),
         .node (.mk { kind := .conditional, line := 2 }
          [.node (.mk { kind := .localVariable, name := "flag" } [.text "flag"])])])]),
     .node (.mk { kind := .parameterList } [.text "a", .text "b", .text "c", .text "d"])]

/-- The parameter list at the end is reported in both runs, and so are the others: the
test in the class, and the parameter list in the block. -/
theorem Walk.steady_issues_of_exchanges_classBeforeBlock :
    Node.classBeforeBlock.Exchanges [⟨[0], 0⟩, ⟨[], 0⟩] .blockBeforeClass ∧
    ((reports "a.rb" true .classBeforeBlock).filter (·.2.isSteady)).map
        (fun r => (r.1, r.2.rule, r.2.className, r.2.methodName)) =
      [([0, 0, 1], "boolean_argument", some "C", some "m"),
        ([1, 0], "too_many_arguments", none, none), ([2], "too_many_arguments", none, none)] ∧
    ∃ w w', run "a.rb" true .classBeforeBlock = .ok w ∧
      run "a.rb" true .blockBeforeClass = .ok w' ∧
      (w'.issues.filter Issue.isSteady).Perm (w.issues.filter Issue.isSteady) ∧
      (reports "a.rb" true .blockBeforeClass).filter
          (fun r => r.2.isSteady ∧ ∀ e ∈ [⟨[0], 0⟩, ⟨[], 0⟩], ¬ Exchange.Moves e r.1) =
        (reports "a.rb" true .classBeforeBlock).filter
          (fun r => r.2.isSteady ∧ ∀ e ∈ [⟨[0], 0⟩, ⟨[], 0⟩], ¬ Exchange.Moves e r.1) := by
  have hmethods : Node.Exchanged ⟨[0], 0⟩ Node.classBeforeBlock _ :=
    .inside [] _ (.here [] [] [] rfl rfl rfl)
  have hneighbours : Node.Exchanged ⟨[], 0⟩ _ .blockBeforeClass :=
    .here [] [] _ rfl rfl rfl
  have hexchanges : Node.classBeforeBlock.Exchanges [⟨[0], 0⟩, ⟨[], 0⟩] .blockBeforeClass :=
    .cons hmethods (.cons hneighbours (.nil _))
  obtain ⟨w, w', hrun, hrun', hperm, -, -, helsewhere⟩ :=
    Walk.steady_issues_of_exchanges hexchanges "a.rb"
  refine ⟨hexchanges, ?_, w, w', hrun, hrun', hperm, helsewhere⟩
  rw [filter_reports, Node.steadyReports, Node.stops_eq]
  decide +kernel

end RubySmells
